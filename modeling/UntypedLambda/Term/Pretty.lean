import UntypedLambda.Fault.Basic
/-!
# Pretty-printed terms

The usual notation: the body of an abstraction reaches as far to the right as it can and application
associates to the left, so parentheses enclose only an abstraction in function position and an
abstraction or an application in argument position.
-/

namespace UntypedLambda.Term

/-- How tightly a text holds together, by the sort of term that it spells. -/
def precedence : Term → Nat
  | lam _ _ => 0
  | app _ _ => 1
  | _ => 2

def parenthesised (needed : Bool) (text : String) : String :=
  if needed then "(" ++ text ++ ")" else text

/-- The text of a child, in parentheses if it holds together less tightly than its parent, or no more
tightly where that is not allowed. -/
def nested (text : String) (child parent : Nat) (allowEqual : Bool) : String :=
  parenthesised (child < parent || (child = parent && !allowEqual)) text

/-- A node weighs more than its children together with its own second visit. -/
def printWeight : Term × Bool → Nat
  | (app _ _, true) => 1
  | (lam _ _, true) => 1
  | (t, _) => 2 * t.size

/-- Prints the terms that are left, each with the mark whether its children are printed already. What
is printed is kept with its precedence, the last one first. -/
def printAll : List (Term × Bool) → List (String × Nat) → Except Fault String
  | [], (text, _) :: _ => .ok text
  | (var name, _) :: work, done => printAll work ((name, (var name).precedence) :: done)
  | (app func arg, false) :: work, done =>
    printAll ((func, false) :: (arg, false) :: (app func arg, true) :: work) done
  | (app func arg, true) :: work, (argText, argPrecedence) :: (funcText, funcPrecedence) :: done =>
    let precedence := (app func arg).precedence
    let text := nested funcText funcPrecedence precedence true ++ " " ++
      nested argText argPrecedence precedence false
    printAll work ((text, precedence) :: done)
  | (lam binder body, false) :: work, done =>
    printAll ((body, false) :: (lam binder body, true) :: work) done
  | (lam binder body, true) :: work, (bodyText, _) :: done =>
    printAll work (("λ" ++ binder ++ "." ++ bodyText, (lam binder body).precedence) :: done)
  | (foreign leaf, _) :: _, _ => .error (.stray .printing leaf)
  | _, _ => .error .noResult
  termination_by work => work.foldr (fun entry total => printWeight entry + total) 0
  decreasing_by
    all_goals simp only [List.foldr_cons, printWeight, size]
    all_goals omega

def pretty (t : Term) : Except Fault String :=
  printAll [(t, false)] []

/-- The text of whatever stands where a term was expected: a text is shown as it is, a number in
decimal, and a term in the usual notation. -/
def display : Term → Except Fault String
  | foreign (.text s) => .ok s
  | foreign (.number n) => .ok (toString n)
  | t => t.pretty

/-! ### The text of a term, from the texts of its parts -/

/-- A term that is to be printed is printed as it is alone, whatever is left to do after it. -/
theorem printAll_cons (t : Term) (work : List (Term × Bool)) (done : List (String × Nat)) :
    printAll ((t, false) :: work) done =
      t.pretty >>= fun text => printAll work ((text, t.precedence) :: done) := by
  induction t generalizing work done with
  | var name =>
    rw [pretty, printAll, printAll, printAll]
    rfl
  | lam binder body ih =>
    rw [pretty, printAll, printAll, ih, ih]
    simp only [printAll, bind_assoc]
    rfl
  | app func arg ihf iha =>
    rw [pretty, printAll, printAll, ihf, ihf]
    simp only [iha, printAll, bind_assoc]
    rfl
  | foreign leaf =>
    rw [pretty, printAll, printAll]
    rfl

theorem pretty_var (name : Name) : (var name).pretty = .ok name := by
  rw [pretty, printAll, printAll]

theorem pretty_lam (binder : Name) (body : Term) :
    (lam binder body).pretty = do return "λ" ++ binder ++ "." ++ (← body.pretty) := by
  rw [pretty, printAll, printAll_cons]
  simp only [printAll]
  rfl

theorem pretty_app (func arg : Term) :
    (app func arg).pretty = do
      let funcText ← func.pretty
      let argText ← arg.pretty
      return nested funcText func.precedence (app func arg).precedence true ++ " " ++
        nested argText arg.precedence (app func arg).precedence false := by
  rw [pretty, printAll, printAll_cons]
  simp only [printAll_cons, printAll]
  rfl

theorem pretty_foreign (leaf : Foreign) :
    (foreign leaf).pretty = .error (.stray .printing leaf) := by
  rw [pretty, printAll]

end UntypedLambda.Term

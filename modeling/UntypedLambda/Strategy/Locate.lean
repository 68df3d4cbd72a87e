import UntypedLambda.Strategy.Policy
import UntypedLambda.Term.Path
/-!
# Locating the next redex

Each policy is a search from the root that ends at the redex it chooses, or finds none. A foreign leaf
is no redex and has none below it. Call by value asks the children of an application whether they are
values, which only a term can answer: it fails on meeting a text or a number.

The two policies that look everywhere keep the terms that are still to be searched, the next one first,
each with its trail from the root.
-/

namespace UntypedLambda

/-- Asks a term whether it is a value. A text or a number is no term and cannot be asked. -/
def Term.askValue : Term → Except Fault Bool
  | .foreign (.text s) => .error (.noPart (Foreign.text s).kind "is_value")
  | .foreign (.number n) => .error (.noPart (Foreign.number n).kind "is_value")
  | t => .ok t.isValue

theorem Term.askValue_cases (t : Term) :
    t.askValue = .ok t.isValue ∨
      ∃ leaf, t = foreign leaf ∧ leaf ≠ .bare ∧ t.askValue = .error (.noPart leaf.kind "is_value") := by
  cases t with
  | foreign leaf =>
    cases leaf with
    | bare => exact .inl rfl
    | text s => exact .inr ⟨.text s, rfl, by simp, rfl⟩
    | number n => exact .inr ⟨.number n, rfl, by simp, rfl⟩
  | _ => exact .inl rfl

namespace Locate

/-- Descends to the first application of an abstraction to a value: into the argument of an
abstraction, and otherwise into the function. -/
def callByValue (trail : Trail Edge) : Term → Except Fault (Option Path)
  | .app func arg => do
    if ← func.askValue then
      if ← arg.askValue then return some trail.unwind else callByValue (.arg :: trail) arg
    else callByValue (.func :: trail) func
  | _ => return none

/-- Descends through functions until one is an abstraction, counting the way. -/
def lazy (depth : Nat) : Term → Option Path
  | .app func _ =>
    if func.isValue then some (List.replicate depth .func) else lazy (depth + 1) func
  | _ => none

/-- Takes the first redex in preorder. -/
def normal : List (Term × Trail Edge) → Option Path
  | [] => none
  | (.lam _ body, trail) :: pending => normal ((body, .body :: trail) :: pending)
  | (.app func arg, trail) :: pending =>
    if func.isValue then some trail.unwind
    else normal ((func, .func :: trail) :: (arg, .arg :: trail) :: pending)
  | (.var _, _) :: pending => normal pending
  | (.foreign _, _) :: pending => normal pending
  termination_by pending => Term.pendingSize (pending.map Prod.fst)
  decreasing_by all_goals simp [Term.pendingSize, Term.size] <;> omega

/-- An application weighs more than its children together with its own second visit. -/
def fullWeight : Term × Trail Edge × Bool → Nat
  | (.app _ _, _, true) => 1
  | (t, _, _) => 2 * t.size

/-- Takes the first redex in postorder. An application is put back with a mark below its children,
and is a candidate when the mark comes up. -/
def full : List (Term × Trail Edge × Bool) → Option Path
  | [] => none
  | (.lam _ body, trail, _) :: pending => full ((body, .body :: trail, false) :: pending)
  | (.app func _, trail, true) :: pending =>
    if func.isValue then some trail.unwind else full pending
  | (.app func arg, trail, false) :: pending =>
    full ((func, .func :: trail, false) :: (arg, .arg :: trail, false) ::
      (.app func arg, trail, true) :: pending)
  | (.var _, _, _) :: pending => full pending
  | (.foreign _, _, _) :: pending => full pending
  termination_by pending => pending.foldr (fun entry total => fullWeight entry + total) 0
  decreasing_by
    all_goals simp only [List.foldr_cons, fullWeight, Term.size]
    all_goals omega

end Locate

def Policy.locate : Policy → Term → Except Fault (Option Path)
  | .callByValue, t => Locate.callByValue [] t
  | .lazy, t => .ok (Locate.lazy 0 t)
  | .normal, t => .ok (Locate.normal [(t, [])])
  | .full, t => .ok (Locate.full [(t, [], false)])

end UntypedLambda

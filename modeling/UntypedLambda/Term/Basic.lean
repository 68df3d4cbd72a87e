/-!
# Terms of the untyped lambda calculus

Terms carry names: two abstractions that differ only in the name of their binder are different
terms. Beside the three forms of the calculus a term may have a foreign leaf, which stands where a
term was expected and is none of the three; every operation says what it does on meeting one.
-/

namespace UntypedLambda

abbrev Name := String

/-- A leaf that is none of the three forms of the calculus: a term without any structure, or a text
or a number that was handed in where a term was expected. -/
inductive Foreign where
  | bare
  | text (s : String)
  | number (n : Int)
  deriving DecidableEq

inductive Term where
  | var (name : Name)
  | lam (binder : Name) (body : Term)
  | app (func arg : Term)
  | foreign (leaf : Foreign)
  deriving DecidableEq

inductive Kind where
  | var
  | lam
  | app
  | bare
  | text
  | number
  deriving DecidableEq

def Kind.word : Kind → String
  | .var => "Var"
  | .lam => "Lam"
  | .app => "App"
  | .bare => "Term"
  | .text => "str"
  | .number => "int"

def Foreign.kind : Foreign → Kind
  | .bare => .bare
  | .text _ => .text
  | .number _ => .number

namespace Term

def kind : Term → Kind
  | var _ => .var
  | lam _ _ => .lam
  | app _ _ => .app
  | foreign leaf => leaf.kind

def size : Term → Nat
  | var _ => 1
  | lam _ body => body.size + 1
  | app func arg => func.size + arg.size + 1
  | foreign _ => 1

theorem size_pos (t : Term) : 0 < t.size := by
  cases t <;> simp [size]

/-- Whether a term is a value: an abstraction. -/
def isValue : Term → Bool
  | lam _ _ => true
  | _ => false

def isRedex : Term → Bool
  | app (lam _ _) _ => true
  | _ => false

def pendingSize (pending : List Term) : Nat :=
  pending.foldr (fun t total => t.size + total) 0

/-- Looks for a redex in the pending terms, through applications alone and the function of each before
its argument. -/
def anyHeadRedex : List Term → Bool
  | [] => false
  | app func arg :: pending =>
    if (app func arg).isRedex then true else anyHeadRedex (func :: arg :: pending)
  | var _ :: pending => anyHeadRedex pending
  | lam _ _ :: pending => anyHeadRedex pending
  | foreign _ :: pending => anyHeadRedex pending
  termination_by pending => pendingSize pending
  decreasing_by all_goals simp [pendingSize, size] <;> omega

/-- Whether a redex can be reached through applications alone, without entering an abstraction. -/
def hasHeadRedex : Term → Bool
  | app func arg => anyHeadRedex [app func arg]
  | _ => false

/-- A term is well formed when it has no foreign leaf and none of its names is empty. -/
def WellFormed : Term → Prop
  | var name => name ≠ ""
  | lam binder body => binder ≠ "" ∧ body.WellFormed
  | app func arg => func.WellFormed ∧ arg.WellFormed
  | foreign _ => False

instance decidableWellFormed : (t : Term) → Decidable t.WellFormed
  | var name => inferInstanceAs (Decidable (name ≠ ""))
  | lam binder body =>
    have := decidableWellFormed body
    inferInstanceAs (Decidable (binder ≠ "" ∧ body.WellFormed))
  | app func arg =>
    have := decidableWellFormed func
    have := decidableWellFormed arg
    inferInstanceAs (Decidable (func.WellFormed ∧ arg.WellFormed))
  | foreign _ => inferInstanceAs (Decidable False)

/-! ### Redexes at the head -/

theorem isRedex_app (func arg : Term) : (app func arg).isRedex = func.isValue := by
  cases func <;> rfl

theorem anyHeadRedex_cons (t : Term) (pending : List Term) :
    anyHeadRedex (t :: pending) = (t.hasHeadRedex || anyHeadRedex pending) := by
  induction t generalizing pending with
  | app func arg ihf iha =>
    rw [hasHeadRedex, anyHeadRedex, anyHeadRedex, ihf, iha, ihf, iha, anyHeadRedex]
    cases (app func arg).isRedex <;> simp [Bool.or_assoc]
  | _ =>
    rw [anyHeadRedex]
    rfl

theorem hasHeadRedex_app (func arg : Term) :
    (app func arg).hasHeadRedex = (func.isValue || func.hasHeadRedex || arg.hasHeadRedex) := by
  rw [hasHeadRedex, anyHeadRedex, isRedex_app, anyHeadRedex_cons, anyHeadRedex_cons, anyHeadRedex]
  cases func.isValue <;> simp

end Term

end UntypedLambda

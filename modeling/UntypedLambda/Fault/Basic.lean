import UntypedLambda.Term.Basic
/-!
# What can go wrong

Every way in which an operation of the calculus refuses its input, as a cause with the values that
explain it. The wording is elsewhere.
-/

namespace UntypedLambda

/-- The walks over a term that refuse a foreign leaf. -/
inductive Walk where
  | freeVars
  | allNames
  | retiring
  | substitution
  | encoding
  | printing
  deriving DecidableEq

inductive Fault where
  | emptyVariable
  | emptyBinder
  /-- Symbols that do not spell exactly one term. -/
  | misspelt
  | negativeIndex
  | negativeBudget
  | unknownShadowing (word : String)
  /-- A name that no strategy has, with the names that strategies have. -/
  | unknownStrategy (name : String) (known : List String)
  /-- A variable that neither an enclosing binder nor the naming context names. The context is the
  one at that variable: outermost first, enclosing binders last. -/
  | unbound (name : Name) (context : List Name)
  /-- A run that was not over within its budget, with the last term it reached. -/
  | stepLimit (strategy : String) (budget : Int) (last : Term)
  /-- A walk met a foreign leaf. -/
  | stray (walk : Walk) (leaf : Foreign)
  /-- A term that was to be contracted and is no redex. -/
  | notRedex (t : Term)
  /-- A node was asked for a part that its sort does not have. -/
  | noPart (kind : Kind) (part : String)
  /-- A machine was to take a finished result and had none. -/
  | noResult
  deriving DecidableEq

instance decidableEqOutcome {ε α : Type} [DecidableEq ε] [DecidableEq α] : DecidableEq (Except ε α)
  | .ok a, .ok b => decidable_of_iff (a = b) (by simp)
  | .error e, .error f => decidable_of_iff (e = f) (by simp)
  | .ok _, .error _ => isFalse (by simp)
  | .error _, .ok _ => isFalse (by simp)

theorem bind_eq_ok_iff {ε α β : Type} {first : Except ε α} {next : α → Except ε β} {b : β} :
    first >>= next = .ok b ↔ ∃ a, first = .ok a ∧ next a = .ok b := by
  cases first <;> simp [bind, Except.bind]

theorem bind_eq_error_iff {ε α β : Type} {first : Except ε α} {next : α → Except ε β} {e : ε} :
    first >>= next = .error e ↔ first = .error e ∨ ∃ a, first = .ok a ∧ next a = .error e := by
  cases first <;> simp [bind, Except.bind]

end UntypedLambda

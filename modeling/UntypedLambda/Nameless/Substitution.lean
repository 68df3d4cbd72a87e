import UntypedLambda.Nameless.Basic
/-!
# Substitution on nameless terms

The textbook operations: shifting the free indices of a term, replacing one index while those above
it are lowered, and contracting a redex.
-/

namespace UntypedLambda.Nameless

/-- Raises the indices at or above a cutoff; each abstraction raises the cutoff by one. -/
def shift (amount cutoff : Nat) : Nameless → Nameless
  | var index => if index < cutoff then .var index else .var (index + amount)
  | lam body => .lam (shift amount (cutoff + 1) body)
  | app func arg => .app (shift amount cutoff func) (shift amount cutoff arg)

/-- Replaces an index, lowering the indices above it; under an abstraction the index is one higher
and the replacement is shifted. -/
def subst (target : Nat) (replacement : Nameless) : Nameless → Nameless
  | var index =>
    if index < target then .var index
    else if index = target then replacement
    else .var (index - 1)
  | lam body => .lam (subst (target + 1) (shift 1 0 replacement) body)
  | app func arg => .app (subst target replacement func) (subst target replacement arg)

def contract? : Nameless → Option Nameless
  | app (lam body) arg => some (subst 0 arg body)
  | _ => none

end UntypedLambda.Nameless

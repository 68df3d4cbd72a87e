import UntypedLambda.Strategy.Basic
/-!
# Evaluation

Evaluation steps a term until its strategy finds no redex. The bounded form gives up after a budget
of steps; whether the budget suffices is seen only by trying one step more, which is then discarded.
The unbounded form need not end, so it is cut off by fuel, which only decides whether there is an
answer and never which.
-/

namespace UntypedLambda.Strategy

/-- Evaluates a term that was reached after some steps, with fuel for so many attempts to step. -/
def evaluateFrom (S : Strategy) : Nat → Nat → Term → Logged (Option Term)
  | 0, _, _ => pure none
  | fuel + 1, steps, t => do
    match ← S.step t with
    | some reduct => evaluateFrom S fuel (steps + 1) reduct
    | none =>
      .tell (.normalForm S.policy steps)
      return some t

/-- Evaluates a term: `none` when the fuel did not suffice. -/
def evaluate (S : Strategy) (fuel : Nat) (t : Term) : Logged (Option Term) :=
  S.evaluateFrom fuel 0 t

/-- Evaluates a term that was reached after some steps and may take so many more out of a budget. -/
def evaluateWithin (S : Strategy) (budget : Nat) : Nat → Nat → Term → Logged Term
  | left, steps, t => do
    match ← S.step t with
    | none =>
      .tell (.normalForm S.policy steps)
      return t
    | some reduct =>
      match left with
      | left + 1 => evaluateWithin S budget left (steps + 1) reduct
      | 0 =>
        .tell (.exhausted S.policy budget)
        .fail (.stepLimit S.policy.name budget t)

def evaluateBounded (S : Strategy) : Int → Term → Logged Term
  | .ofNat budget, t => S.evaluateWithin budget budget 0 t
  | .negSucc _, _ => .fail .negativeBudget

end UntypedLambda.Strategy

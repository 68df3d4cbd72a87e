import UntypedLambda.Strategy.Locate
import UntypedLambda.Substitution.Machine
/-!
# Strategies

A strategy is a policy together with a treatment of shadowing. One step locates a redex, contracts
it and puts the contractum in its place.
-/

namespace UntypedLambda

def Term.contract (shadowing : Shadowing) : Term → Logged Term
  | .app (.lam binder body) arg => body.subst binder arg shadowing
  | t => .fail (.notRedex t)

structure Strategy where
  policy : Policy
  shadowing : Shadowing := .stop
  deriving DecidableEq

namespace Strategy

/-- The strategy that is asked for by name, with an optional word for the treatment of shadowing.
The word is looked at first. -/
def ofWords (name : String) (shadowing : Option String) : Except Fault Strategy := do
  let shadowing ← Shadowing.resolve shadowing
  return ⟨← Policy.ofName name, shadowing⟩

def description (S : Strategy) : String :=
  S.policy.title ++ "(shadowing=<Shadowing." ++ S.shadowing.title ++ ": '" ++ S.shadowing.word ++
    "'>)"

def locate (S : Strategy) (t : Term) : Except Fault (Option Path) :=
  S.policy.locate t

/-- One step: `none` when the strategy finds no redex. -/
def step (S : Strategy) (t : Term) : Logged (Option Term) := do
  match ← S.locate t with
  | none => return none
  | some path =>
    let redex ← t.subterm path
    .tell (.contracting S.policy redex path)
    let contractum ← redex.contract S.shadowing
    return some (← t.replaceAt path contractum)

/-- What a step comes to, apart from what it tells. -/
theorem outcome_step (S : Strategy) (t : Term) :
    (S.step t).outcome = S.locate t >>= fun
      | none => return none
      | some path => do
        let redex ← t.subterm path
        let contractum ← (redex.contract S.shadowing).outcome
        return some (← t.replaceAt path contractum) := by
  rw [step, Logged.outcome_bind]
  congr 1
  funext found
  cases found with
  | none => rfl
  | some path =>
    simp only [Logged.liftM_eq, Logged.outcome_bind, Logged.outcome_ofExcept, Logged.outcome_tell]
    rfl

end Strategy

end UntypedLambda

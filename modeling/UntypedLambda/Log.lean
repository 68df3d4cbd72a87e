import UntypedLambda.Strategy.Policy
import UntypedLambda.Term.Path
import UntypedLambda.Term.Pretty
/-!
# Logged computations

A computation tells what it does as a list of events and ends with a value or a fault. The events
that came before a fault are kept.
-/

namespace UntypedLambda

inductive Event where
  | renamed (old new : Name)
  /-- A redex was found at a path and is about to be contracted. -/
  | contracting (policy : Policy) (redex : Term) (path : Path)
  /-- A run ended, no redex being left for its policy. -/
  | normalForm (policy : Policy) (steps : Nat)
  | exhausted (policy : Policy) (budget : Nat)
  deriving DecidableEq

inductive Severity where
  | detail
  | warning
  deriving DecidableEq

inductive Source where
  | substitution
  | strategy
  deriving DecidableEq

namespace Event

def severity : Event → Severity
  | exhausted _ _ => .warning
  | _ => .detail

def source : Event → Source
  | renamed _ _ => .substitution
  | _ => .strategy

/-- The wording of an event. It fails only for a redex that cannot be printed. -/
def message : Event → Except Fault String
  | renamed old new => .ok ("renamed binder " ++ old ++ " to " ++ new)
  | contracting policy redex path => do
    return policy.name ++ ": contracting " ++ (← redex.pretty) ++ " at " ++ path.description
  | normalForm policy steps =>
    .ok (policy.name ++ ": normal form after " ++ toString steps ++ " steps")
  | exhausted policy budget =>
    .ok (policy.name ++ ": step budget of " ++ toString budget ++ " exhausted")

end Event

/-- A computation that is over: what it told, in order, and how it ended. -/
structure Logged (α : Type) where
  log : List Event
  outcome : Except Fault α

namespace Logged

variable {α β : Type}

def ofExcept (outcome : Except Fault α) : Logged α :=
  ⟨[], outcome⟩

def tell (event : Event) : Logged Unit :=
  ⟨[event], .ok ()⟩

def fail (fault : Fault) : Logged α :=
  ⟨[], .error fault⟩

/-- Runs one computation after another; a fault in the first ends both. -/
def andThen (first : Logged α) (next : α → Logged β) : Logged β :=
  match first.outcome with
  | .ok a => let second := next a; ⟨first.log ++ second.log, second.outcome⟩
  | .error fault => ⟨first.log, .error fault⟩

instance : Monad Logged where
  pure a := ⟨[], .ok a⟩
  bind := andThen
  map f computation := ⟨computation.log, computation.outcome.map f⟩

instance : MonadLift (Except Fault) Logged where
  monadLift := ofExcept

/-! ### What is told and how it ends -/

@[simp] theorem liftM_eq (outcome : Except Fault α) : (liftM outcome : Logged α) = ofExcept outcome :=
  rfl

@[simp] theorem log_ofExcept (outcome : Except Fault α) : (ofExcept outcome).log = [] := rfl

@[simp] theorem outcome_ofExcept (outcome : Except Fault α) : (ofExcept outcome).outcome = outcome :=
  rfl

@[simp] theorem log_tell (event : Event) : (tell event).log = [event] := rfl

@[simp] theorem outcome_tell (event : Event) : (tell event).outcome = .ok () := rfl

@[simp] theorem log_fail (fault : Fault) : (fail fault : Logged α).log = [] := rfl

@[simp] theorem outcome_fail (fault : Fault) : (fail fault : Logged α).outcome = .error fault := rfl

@[simp] theorem log_pure (a : α) : (pure a : Logged α).log = [] := rfl

@[simp] theorem outcome_pure (a : α) : (pure a : Logged α).outcome = .ok a := rfl

theorem bind_eq (first : Logged α) (next : α → Logged β) : first >>= next = andThen first next := rfl

@[simp] theorem outcome_bind (first : Logged α) (next : α → Logged β) :
    (first >>= next).outcome = first.outcome >>= fun a => (next a).outcome := by
  rw [bind_eq, andThen]
  cases first.outcome <;> rfl

theorem outcome_bind_of_ok {first : Logged α} {a : α} (h : first.outcome = .ok a)
    (next : α → Logged β) : (first >>= next).outcome = (next a).outcome := by
  rw [outcome_bind, h]
  rfl

theorem outcome_bind_of_error {first : Logged α} {fault : Fault} (h : first.outcome = .error fault)
    (next : α → Logged β) : (first >>= next).outcome = .error fault := by
  rw [outcome_bind, h]
  rfl

@[simp] theorem outcome_map (f : α → β) (computation : Logged α) :
    (f <$> computation).outcome = computation.outcome.map f :=
  rfl

@[simp] theorem log_map (f : α → β) (computation : Logged α) :
    (f <$> computation).log = computation.log :=
  rfl

theorem log_bind_of_ok {first : Logged α} {a : α} (h : first.outcome = .ok a)
    (next : α → Logged β) : (first >>= next).log = first.log ++ (next a).log := by
  simp [bind_eq, andThen, h]

theorem log_bind_of_error {first : Logged α} {fault : Fault} (h : first.outcome = .error fault)
    (next : α → Logged β) : (first >>= next).log = first.log := by
  simp [bind_eq, andThen, h]

end Logged

end UntypedLambda

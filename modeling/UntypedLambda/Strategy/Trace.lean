import UntypedLambda.Strategy.Basic
/-!
# Traces

A trace gives a term and then, one at a time, the terms that it steps to. Nothing is computed before
it is asked for, and a trace that has ended or failed gives nothing more.
-/

namespace UntypedLambda

/-- How far a trace has been pulled. -/
inductive Trace where
  /-- Nothing was pulled yet; the first pull gives the term itself. -/
  | start (t : Term)
  /-- The term was the last one pulled. -/
  | reached (t : Term)
  /-- There is nothing left to pull. -/
  | ended
  deriving DecidableEq

namespace Trace

/-- Pulls the next term, which costs one step unless it is the first. -/
def next (S : Strategy) : Trace → Logged (Option Term) × Trace
  | start t => (pure (some t), reached t)
  | reached t =>
    let pulled := S.step t
    match pulled.outcome with
    | .ok (some reduct) => (pulled, reached reduct)
    | _ => (pulled, ended)
  | ended => (pure none, ended)

/-- Pulls so many terms, or all of them if they are fewer. -/
def take (S : Strategy) : Nat → Trace → Logged (List Term)
  | 0, _ => pure []
  | count + 1, trace => do
    let (pulled, rest) := trace.next S
    match ← pulled with
    | some t => (t :: ·) <$> take S count rest
    | none => return []

end Trace

end UntypedLambda

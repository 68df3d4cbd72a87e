import UntypedLambda.Session.Request
import UntypedLambda.Strategy.Trace
/-!
# Sets of traces

Several traces can be open at once, each under an identifier of its own; pulling one does not disturb
the others. Opening a trace takes no step, and one that was never opened is over from the start.
-/

namespace UntypedLambda

/-- Ends a computation normally with its outcome as the value, keeping what it told. -/
def Logged.attempt {α : Type} (computation : Logged α) : Logged (Except Fault α) :=
  ⟨computation.log, .ok computation.outcome⟩

/-- The open traces by identifier, each with its strategy. -/
abbrev TraceTable := List (String × Strategy × Trace)

def TraceTable.set (table : TraceTable) (id : String) (S : Strategy) (trace : Trace) : TraceTable :=
  (id, S, trace) :: table.filter fun entry => entry.1 != id

namespace TraceCommand

/-- Carries out a command: the table after it, and the answer. A command that fails to open a trace
leaves the table as it was, and a trace whose step fails is over. -/
def perform (table : TraceTable) : TraceCommand → TraceTable × Logged Answer
  | start id strategy term =>
    match (do return (← strategy.resolve, ← term.form) : Except Fault (Strategy × Term)) with
    | .ok (S, t) => (table.set id S (.start t), pure .opened)
    | .error fault => (table, .fail fault)
  | next id =>
    match table.lookup id with
    | some (S, trace) =>
      let (pulled, rest) := trace.next S
      (table.set id S rest, return match ← pulled with
        | some t => .term t
        | none => .ended)
    | none => (table, pure .ended)

def performAll : TraceTable → List TraceCommand → Logged (List (Except Fault Answer))
  | _, [] => return []
  | table, command :: commands => do
    let (table, answer) := command.perform table
    let answer ← answer.attempt
    (answer :: ·) <$> performAll table commands

end TraceCommand

end UntypedLambda

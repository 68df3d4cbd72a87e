import UntypedLambda.Session.Perform
import UntypedLambda.Session.Traces
/-!
# Sessions

A session keeps a current term. Each move looks at a subterm of it and carries out a request there;
a reply that gives a term is put in place of the subterm, and every other reply leaves the current
term as it was, faults and the replies of a session within the session included.
-/

namespace UntypedLambda

def Inquiry.perform : Inquiry → Logged Reply
  | strategy words => return .one (.strategy (← words.resolve))
  | strategies => return .one (.names Policy.names)
  | index n => return .one (.nameless (← Nameless.ofIndex n) none)
  | unwind edges =>
    return .one (.path (Trail.unwind (edges.foldl (fun trail edge => edge :: trail) [])))
  | unboundText name context => return .one (← (Fault.unbound name context).answer)
  | unknownStrategyText name known => return .one (← (Fault.unknownStrategy name known).answer)
  | traces commands => do
    let answers ← TraceCommand.performAll [] commands
    return .many (answers.map (Except.map .one))

/-- What a reply to a request at the end of a route makes of the current term, and the reply to be
shown, in which the whole current term stands for the result. -/
def Route.settle (route : Route) (current : Term) (reply : Reply) : Except Fault (Term × Reply) :=
  match reply.result? with
  | some t => do
    let whole ← route.replace current t
    return (whole, reply.withResult whole)
  | none => .ok (current, reply)

mutual

def Request.perform (fuel : Nat) (t : Term) : Request → Logged Reply
  | .operation op => return .one (← op.perform fuel t)
  | .inquiry query => query.perform
  | .session script => return .many (← script.perform fuel t)

def Script.perform (fuel : Nat) (current : Term) : Script → Logged (List (Except Fault Reply))
  | .done => return []
  | .move route request rest => do
    let moved : Logged (Term × Reply) := do
      let focus ← route.follow current
      let reply ← request.perform fuel focus
      route.settle current reply
    match ← moved.attempt with
    | .ok (whole, reply) => (.ok reply :: ·) <$> rest.perform fuel whole
    | .error fault => (.error fault :: ·) <$> rest.perform fuel current

end

def Query.perform (fuel : Nat) : Query → Logged Reply
  | about term request => do request.perform fuel (← term.form)
  | alone inquiry => inquiry.perform

end UntypedLambda

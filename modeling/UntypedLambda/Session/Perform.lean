import UntypedLambda.Fault.Message
import UntypedLambda.Nameless.Encoding
import UntypedLambda.Session.Request
import UntypedLambda.Strategy.Evaluate
import UntypedLambda.Strategy.Trace
import UntypedLambda.Term.Listing
import UntypedLambda.Term.Spine
/-!
# Carrying out operations

The operands of an operation are formed and its words are resolved before the operation itself starts,
in the order in which the steps stand below; the first that fails is the answer.
-/

namespace UntypedLambda

/-- The three predicates of a term. A text or a number has none of them. -/
def Term.predicates (t : Term) : Except Fault Answer :=
  return .predicates (← t.askValue) t.isRedex t.hasHeadRedex

def Fault.answer (fault : Fault) : Except Fault Answer :=
  return .wording fault (← fault.message)

/-- Carries out an operation on a term; an evaluation without a budget has the given fuel. -/
def Operation.perform (fuel : Nat) (t : Term) : Operation → Logged Answer
  | construct => return .term t
  | pretty => return .text (← t.pretty)
  | display => return .text (← t.display)
  | listing => return .text t.listing
  | predicates => .ofExcept t.predicates
  | equal other => return .equal (t = (← other.form))
  | freeVars => return .names (Text.sorted (← t.freeVars))
  | allNames => return .names (Text.sorted (← t.allNames))
  | subst target replacement shadowing => do
    let replacement ← replacement.form
    let shadowing ← Shadowing.resolve shadowing
    return .term (← t.subst target replacement shadowing)
  | rename avoid => return .term (← t.rename avoid)
  | retire name current count avoid => do
    let (retired, reached) ← t.retire name avoid current count
    return .counted retired reached
  | contract shadowing => do
    let shadowing ← Shadowing.resolve shadowing
    return .term (← t.contract shadowing)
  | subterm words => return .term (← (Route.ofWords words).follow t)
  | replaceAt words new => do
    let new ← new.form
    return .term (← (Route.ofWords words).replace t new)
  | applyTo args => do
    let args ← (args.mapM Draft.form : Except Fault (List Term))
    return .term (← t.applyTo args)
  | abstractOver binders => return .term (← t.abstractOver binders)
  | ofOperand => return .term (← t.ofOperand)
  | unapply =>
    let (head, args) := t.unapply
    return .spine head args
  | encode context listed => do
    let code ← t.encodeWith context
    return .nameless code (if listed then some code.listing else none)
  | encodesLike other context => do
    let code ← t.encodeWith context
    let other ← other.form
    return .equal (code = (← other.encodeWith context))
  | locate strategy => do
    let S ← strategy.resolve
    match ← S.locate t with
    | some path => return .path (path.map Edge.word)
    | none => return .noRedex
  | step strategy => do
    let S ← strategy.resolve
    match ← S.step t with
    | some reduct => return .term reduct
    | none => return .noStep
  | trace strategy limit => do
    let S ← strategy.resolve
    return .terms (← (Trace.start t).take S limit)
  | evaluate strategy => do
    let S ← strategy.resolve
    match ← S.evaluate fuel t with
    | some result => return .term result
    | none => return .unfinished
  | evaluateBounded strategy budget => do
    let S ← strategy.resolve
    return .term (← S.evaluateBounded budget t)
  | stepLimitText name budget => .ofExcept (Fault.stepLimit name budget t).answer

end UntypedLambda

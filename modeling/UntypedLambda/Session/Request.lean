import UntypedLambda.Strategy.Basic
import UntypedLambda.Nameless.Basic
import UntypedLambda.Term.Preorder
/-!
# Requests and answers

What the library can be asked and what it answers, as data. A request holds its operands as they were
handed in, unformed terms and words that may name nothing, so that which of several faults is reported
is decided where the request is carried out.
-/

namespace UntypedLambda

structure StrategyWords where
  name : String
  shadowing : Option String := none
  deriving DecidableEq

def StrategyWords.resolve (words : StrategyWords) : Except Fault Strategy :=
  Strategy.ofWords words.name words.shadowing

inductive Operation where
  | construct
  /-- The term in the usual notation. -/
  | pretty
  /-- The text of the term or of whatever stands in its place. -/
  | display
  | listing
  /-- Whether the term is a value, is a redex, has a head redex. -/
  | predicates
  /-- Whether the term is equal to another, names included. -/
  | equal (other : Draft)
  | freeVars
  | allNames
  | subst (target : Name) (replacement : Draft) (shadowing : Option String)
  | rename (avoid : List Name)
  | retire (name current : Name) (count : Int) (avoid : List Name)
  | contract (shadowing : Option String)
  | subterm (words : List String)
  | replaceAt (words : List String) (new : Draft)
  | applyTo (args : List Draft)
  | abstractOver (binders : List Name)
  | ofOperand
  | unapply
  /-- The nameless form, with its listing if that is wanted. -/
  | encode (context : Option (List Name)) (listed : Bool)
  /-- Whether the term has the same nameless form as another. -/
  | encodesLike (other : Draft) (context : Option (List Name))
  | locate (strategy : StrategyWords)
  | step (strategy : StrategyWords)
  | trace (strategy : StrategyWords) (limit : Nat)
  | evaluate (strategy : StrategyWords)
  | evaluateBounded (strategy : StrategyWords) (budget : Int)
  /-- The wording of a step limit whose last term is this one. -/
  | stepLimitText (strategy : String) (budget : Int)
  deriving DecidableEq

inductive TraceCommand where
  /-- Opens a trace, or starts it again; no step is taken. -/
  | start (id : String) (strategy : StrategyWords) (term : Draft)
  | next (id : String)
  deriving DecidableEq

inductive Inquiry where
  | strategy (words : StrategyWords)
  | strategies
  | index (index : Int)
  /-- The path that is recorded by the trail of these edges, each put on top of those before it. -/
  | unwind (edges : List String)
  | unboundText (name : Name) (context : List Name)
  | unknownStrategyText (name : String) (known : List String)
  /-- The answers to commands on traces of their own. -/
  | traces (commands : List TraceCommand)
  deriving DecidableEq

mutual

inductive Request where
  | operation (operation : Operation)
  | inquiry (inquiry : Inquiry)
  /-- A session of its own, which starts from the term looked at. -/
  | session (script : Script)

/-- The moves of a session, in order: each is a request for the subterm of the current term at the
end of a route. -/
inductive Script where
  | done
  | move (route : Route) (request : Request) (rest : Script)

end

inductive Query where
  /-- A request about a term, which is formed first. -/
  | about (term : Draft) (request : Request)
  | alone (inquiry : Inquiry)

inductive Answer where
  | term (t : Term)
  /-- A term from which a name was retired, and the count of marks reached. -/
  | counted (t : Term) (count : Int)
  | text (s : String)
  | predicates (isValue isRedex hasHeadRedex : Bool)
  | equal (same : Bool)
  | names (names : List Name)
  | path (words : List String)
  | noRedex
  | noStep
  | spine (head : Term) (args : List Term)
  | nameless (t : Nameless) (listing : Option String)
  | terms (terms : List Term)
  | strategy (S : Strategy)
  | wording (fault : Fault) (text : String)
  | opened
  | ended
  /-- An evaluation ran out of fuel. -/
  | unfinished
  deriving DecidableEq

/-- A reply: one answer, or one reply for each of a list of requests. -/
inductive Reply where
  | one (answer : Answer)
  | many (replies : List (Except Fault Reply))

namespace Reply

/-- The term that a reply puts in place of the one it was asked about. -/
def result? : Reply → Option Term
  | one (.term t) => some t
  | one (.counted t _) => some t
  | _ => none

def withResult : Reply → Term → Reply
  | one (.term _), t => one (.term t)
  | one (.counted _ count), t => one (.counted t count)
  | reply, _ => reply

end Reply

end UntypedLambda

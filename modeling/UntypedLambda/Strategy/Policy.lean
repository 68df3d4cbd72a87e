import UntypedLambda.Fault.Basic
/-!
# Policies

The four ways of choosing the next redex, by name. What each of them chooses is said where redexes
are located.
-/

namespace UntypedLambda

/-- A way of choosing the redex to contract next. -/
inductive Policy where
  /-- The outermost application whose argument is a value. -/
  | callByValue
  /-- The head redex, with its argument as it stands. -/
  | lazy
  /-- The leftmost outermost redex. -/
  | normal
  /-- The leftmost innermost redex. -/
  | full
  deriving DecidableEq

namespace Policy

def all : List Policy :=
  [callByValue, lazy, normal, full]

def name : Policy → String
  | callByValue => "call-by-value"
  | lazy => "lazy"
  | normal => "normal"
  | full => "full"

def title : Policy → String
  | callByValue => "CallByValue"
  | lazy => "Lazy"
  | normal => "Normal"
  | full => "Full"

def names : List String :=
  all.map name

def ofName (name : String) : Except Fault Policy :=
  match all.find? fun policy => policy.name == name with
  | some policy => .ok policy
  | none => .error (.unknownStrategy name names)

end Policy

end UntypedLambda

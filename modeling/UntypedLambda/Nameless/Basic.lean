import UntypedLambda.Fault.Basic
/-!
# Nameless terms

A variable is the number of binders between it and the one it belongs to; numbers past every
enclosing binder stand for free variables. Two terms with names are the same up to the choice of
bound names exactly if they have the same nameless form.
-/

namespace UntypedLambda

inductive Nameless where
  | var (index : Nat)
  | lam (body : Nameless)
  | app (func arg : Nameless)
  deriving DecidableEq

inductive NamelessSymbol where
  | var (index : Nat)
  | lam
  | app
  deriving DecidableEq

namespace Nameless

/-- A nameless variable, whose index must not be negative. -/
def ofIndex : Int → Except Fault Nameless
  | .ofNat index => .ok (.var index)
  | .negSucc _ => .error .negativeIndex

def spellOnto : Nameless → List NamelessSymbol → List NamelessSymbol
  | var index, rest => .var index :: rest
  | lam body, rest => .lam :: body.spellOnto rest
  | app func arg, rest => .app :: func.spellOnto (arg.spellOnto rest)

/-- The spelling of a nameless term: each node before its children, the function of an application
before its argument. -/
def spelling (t : Nameless) : List NamelessSymbol :=
  t.spellOnto []

def listing : Nameless → String
  | var index => "DBVar(index=" ++ toString index ++ ")"
  | lam body => "DBLam(body=" ++ body.listing ++ ")"
  | app func arg => "DBApp(func=" ++ func.listing ++ ", arg=" ++ arg.listing ++ ")"

end Nameless

end UntypedLambda

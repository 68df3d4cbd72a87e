import UntypedLambda.Nameless.Basic
import UntypedLambda.Term.Names
import UntypedLambda.Text.Quoted
/-!
# The nameless form of a term

The encoding walks a term with the names in scope, innermost first, and a variable becomes the
position of its name in the scope. A context gives the names of free variables outermost first; where
none is given, it is the free names of the term in order.
-/

namespace UntypedLambda.Term

/-- The nameless form of a term under a scope, innermost name first. -/
def encodeIn : Term → List Name → Except Fault Nameless
  | var name, scope =>
    match scope.idxOf? name with
    | some index => .ok (.var index)
    | none => .error (.unbound name scope.reverse)
  | lam binder body, scope => do return .lam (← body.encodeIn (binder :: scope))
  | app func arg, scope => do
    let func ← func.encodeIn scope
    let arg ← arg.encodeIn scope
    return .app func arg
  | foreign leaf, _ => .error (.stray .encoding leaf)

/-- The nameless form of a term in a naming context, outermost name first. -/
def encode (t : Term) (context : List Name) : Except Fault Nameless :=
  t.encodeIn context.reverse

/-- The nameless form of a term in the context of its own free names, sorted. -/
def encodeAlone (t : Term) : Except Fault Nameless := do
  t.encode (Text.sorted (← t.freeVars))

def encodeWith (t : Term) : Option (List Name) → Except Fault Nameless
  | some context => t.encode context
  | none => t.encodeAlone

end UntypedLambda.Term

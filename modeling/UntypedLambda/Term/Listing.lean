import UntypedLambda.Term.Basic
import UntypedLambda.Text.Quoted
/-!
# Listings of terms

The listing of a term names every node with its parts, so that it tells any two terms apart.
-/

namespace UntypedLambda

def Foreign.listing : Foreign → String
  | .bare => "Term()"
  | .text s => Text.quoted s
  | .number n => toString n

def Term.listing : Term → String
  | .var name => "Var(name=" ++ Text.quoted name ++ ")"
  | .lam binder body => "Lam(name=" ++ Text.quoted binder ++ ", body=" ++ body.listing ++ ")"
  | .app func arg => "App(func=" ++ func.listing ++ ", arg=" ++ arg.listing ++ ")"
  | .foreign leaf => leaf.listing

end UntypedLambda

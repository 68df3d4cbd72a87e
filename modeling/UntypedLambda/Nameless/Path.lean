import UntypedLambda.Nameless.Substitution
import UntypedLambda.Term.Path
/-!
# Contraction inside a nameless term

Paths lead into nameless terms by the same edges as into terms with names.
-/

namespace UntypedLambda.Nameless

/-- The term with the redex at the end of a path contracted; `none` when the path leads to no
redex. -/
def contractAt? : Nameless → Path → Option Nameless
  | t, [] => t.contract?
  | lam body, .body :: path => (body.contractAt? path).map .lam
  | app func arg, .func :: path => (func.contractAt? path).map (.app · arg)
  | app func arg, .arg :: path => (arg.contractAt? path).map (.app func ·)
  | _, _ => none

end UntypedLambda.Nameless

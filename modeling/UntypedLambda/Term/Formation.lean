import UntypedLambda.Fault.Basic
/-!
# Forming terms

A variable and a binder must have a non-empty name. A term is checked from its leaves up, the
function of an application before its argument, so the first offence is the leftmost among those
that stand below no other.
-/

namespace UntypedLambda.Term

def formVar (name : Name) : Except Fault Term :=
  if name = "" then .error .emptyVariable else .ok (.var name)

def formLam (binder : Name) (body : Term) : Except Fault Term :=
  if binder = "" then .error .emptyBinder else .ok (.lam binder body)

/-- Forms a term anew from its leaves up, so that the first empty name is refused. -/
def formed : Term → Except Fault Term
  | var name => formVar name
  | lam binder body => do formLam binder (← body.formed)
  | app func arg => do
    let func ← func.formed
    let arg ← arg.formed
    return .app func arg
  | foreign leaf => .ok (.foreign leaf)

/-- Reads a text that stands for a term as the variable of that name; a term stands for itself. -/
def ofOperand : Term → Except Fault Term
  | foreign (.text s) => formVar s
  | t => .ok t

end UntypedLambda.Term

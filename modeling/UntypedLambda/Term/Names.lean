import UntypedLambda.Fault.Basic
/-!
# The names of a term

Both collections walk the term in preorder with an explicit list of what is still to be visited, so
the depth of a term costs no stack, and refuse it at the first foreign leaf. A name is collected
once.
-/

namespace UntypedLambda.Term

/-- Collects the free names of pending terms, each with the binders that enclose it. -/
def collectFree : List (Term × List Name) → List Name → Except Fault (List Name)
  | [], found => .ok found
  | (var name, bound) :: rest, found =>
    collectFree rest (if name ∈ bound then found else found.insert name)
  | (lam binder body, bound) :: rest, found =>
    collectFree ((body, binder :: bound) :: rest) found
  | (app func arg, bound) :: rest, found =>
    collectFree ((func, bound) :: (arg, bound) :: rest) found
  | (foreign leaf, _) :: _, _ => .error (.stray .freeVars leaf)
  termination_by pending => pendingSize (pending.map Prod.fst)
  decreasing_by all_goals simp [pendingSize, size] <;> omega

/-- The names that occur as a variable outside every abstraction that binds them. -/
def freeVars (t : Term) : Except Fault (List Name) :=
  collectFree [(t, [])] []

def collectNames : List Term → List Name → Except Fault (List Name)
  | [], found => .ok found
  | var name :: rest, found => collectNames rest (found.insert name)
  | lam binder body :: rest, found => collectNames (body :: rest) (found.insert binder)
  | app func arg :: rest, found => collectNames (func :: arg :: rest) found
  | foreign leaf :: _, _ => .error (.stray .allNames leaf)
  termination_by pending => pendingSize pending
  decreasing_by all_goals simp [pendingSize, size] <;> omega

def allNames (t : Term) : Except Fault (List Name) :=
  collectNames [t] []

end UntypedLambda.Term

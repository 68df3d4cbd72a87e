import UntypedLambda.Substitution.Basic
/-!
# The rules of substitution

The rules that say what a substitution gives, by recursion on the term. An abstraction whose binder
has to be renamed is entered in its renamed form, which is no subterm of it but has its size, so the
recursion ends.
-/

namespace UntypedLambda.Substitution

/-- What a substitution gives on a term, by the rules. -/
def byRules (σ : Substitution) (t : Term) : Logged Term :=
  match t with
  | .var name => pure (σ.onVar name)
  | .lam binder body =>
    if σ.stopsAt binder then pure (.lam binder body)
    else if σ.mustRename binder then
      match _h : σ.refresh binder body with
      | .ok (fresh, renamed) => do
        .tell (.renamed binder fresh)
        return .lam fresh (← σ.byRules renamed)
      | .error fault => .fail fault
    else return .lam binder (← σ.byRules body)
  | .app func arg => do
    let func ← σ.byRules func
    let arg ← σ.byRules arg
    return .app func arg
  | .foreign leaf => .fail (.stray .substitution leaf)
  termination_by t.size
  decreasing_by
    · simp only [Term.size, Term.size_refresh _h]
      omega
    all_goals
      simp only [Term.size]
      omega

end UntypedLambda.Substitution

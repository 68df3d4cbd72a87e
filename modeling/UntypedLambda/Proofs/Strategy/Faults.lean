import UntypedLambda.Proofs.Substitution.Machine
import UntypedLambda.Strategy.Basic
/-!
# A step never reports a step limit

Following a path, contracting a redex and putting the contractum in place fail in several ways, but
never with a step limit: that fault is left to evaluation within a budget. Each computation that a
step is made of is gone through once, and a sequence of two is free of step limits if both are.
-/

namespace UntypedLambda

def Unlimited {α : Type} (outcome : Except Fault α) : Prop :=
  ∀ name budget last, outcome ≠ .error (.stepLimit name budget last)

theorem Unlimited.ok {α : Type} (a : α) : Unlimited (.ok a : Except Fault α) := by
  simp [Unlimited]

theorem Unlimited.bind {α β : Type} {first : Except Fault α} {next : α → Except Fault β}
    (hfirst : Unlimited first) (hnext : ∀ a, Unlimited (next a)) : Unlimited (first >>= next) := by
  cases first with
  | ok a => exact hnext a
  | error fault => simpa [Unlimited, Bind.bind, Except.bind] using hfirst

namespace Term

theorem unlimited_child (t : Term) (edge : Edge) : Unlimited (t.child edge) := by
  cases t <;> cases edge <;> simp [Unlimited, child]

theorem unlimited_subterm (t : Term) (path : Path) : Unlimited (t.subterm path) := by
  induction path generalizing t with
  | nil => exact .ok t
  | cons edge path ih => exact (t.unlimited_child edge).bind ih

theorem unlimited_replaceAt (t : Term) (path : Path) (new : Term) :
    Unlimited (t.replaceAt path new) := by
  induction path generalizing t with
  | nil => exact .ok new
  | cons edge path ih =>
    rw [replaceAt_cons]
    exact (t.unlimited_child edge).bind fun next => (ih next).bind fun replaced => .ok _

theorem unlimited_formVar (name : Name) : Unlimited (formVar name) := by
  rw [formVar]
  split <;> simp [Unlimited]

theorem unlimited_collectFree (pending : List (Term × List Name)) (found : List Name) :
    Unlimited (collectFree pending found) := by
  fun_induction collectFree pending found with
  | case1 found => exact .ok found
  | case5 leaf bound rest found => simp [Unlimited]
  | _ => assumption

theorem unlimited_collectNames (pending : List Term) (found : List Name) :
    Unlimited (collectNames pending found) := by
  fun_induction collectNames pending found with
  | case1 found => exact .ok found
  | case5 leaf rest found => simp [Unlimited]
  | _ => assumption

theorem unlimited_retire (name : Name) (avoid : List Name) (t : Term) (current : Name)
    (count : Int) : Unlimited (t.retire name avoid current count) := by
  induction t generalizing current count with
  | var n =>
    rw [retire_var]
    split
    · exact (unlimited_formVar current).bind fun t => .ok _
    · exact .ok _
  | lam n body ih =>
    rw [retire_lam]
    split <;> exact (ih _ _).bind fun retired => .ok _
  | app func arg ihf iha =>
    rw [retire_app]
    exact (ihf _ _).bind fun func => (iha _ _).bind fun arg => .ok _
  | foreign leaf => simp [Unlimited, retire_foreign]

theorem unlimited_refresh (binder : Name) (body : Term) (avoid : List Name) :
    Unlimited (refresh binder body avoid) :=
  (unlimited_collectNames [body] []).bind fun _ => (unlimited_retire _ _ _ _ _).bind fun _ => .ok _

end Term

theorem Substitution.unlimited_byRules (σ : Substitution) (t : Term) :
    Unlimited (σ.byRules t).outcome := by
  fun_induction byRules σ t with
  | case1 name => exact .ok _
  | case2 binder body hstop => exact .ok _
  | case3 binder body hstop hrename fresh renamed hrefresh ih =>
    rw [Logged.outcome_bind_of_ok rfl, Logged.outcome_bind]
    exact ih.bind fun body => .ok _
  | case4 binder body hstop hrename fault hrefresh =>
    have hlimit : Unlimited (σ.refresh binder body) := Term.unlimited_refresh _ _ _
    intro name budget last hfault
    cases hfault
    exact hlimit _ _ _ hrefresh
  | case5 binder body hstop hrename ih =>
    rw [Logged.outcome_bind]
    exact ih.bind fun body => .ok _
  | case6 func arg ihf iha =>
    rw [Logged.outcome_bind]
    refine ihf.bind fun func => ?_
    rw [Logged.outcome_bind]
    exact iha.bind fun arg => .ok _
  | case7 leaf => simp [Unlimited]

theorem Term.unlimited_contract (t : Term) (shadowing : Shadowing) :
    Unlimited (t.contract shadowing).outcome := by
  fun_cases contract shadowing t with
  | case1 binder body arg =>
    rw [subst, Logged.outcome_bind]
    refine Unlimited.bind ((unlimited_collectFree _ _).bind fun names => .ok _) fun σ => ?_
    rw [Substitution.State.run_start]
    exact σ.unlimited_byRules body
  | case2 t => simp [Unlimited]

theorem Term.unlimited_askValue (t : Term) : Unlimited t.askValue := by
  rcases t.askValue_cases with hask | ⟨_, _, _, hask⟩ <;> simp [Unlimited, hask]

theorem Locate.unlimited_callByValue (trail : Trail Edge) (t : Term) :
    Unlimited (callByValue trail t) := by
  induction t generalizing trail with
  | app func arg ihf iha =>
    rw [callByValue]
    refine func.unlimited_askValue.bind fun hvalue => ?_
    split
    · refine arg.unlimited_askValue.bind fun hvalue => ?_
      split
      · exact .ok _
      · exact iha _
    · exact ihf _
  | _ => exact .ok none

theorem Policy.unlimited_locate (policy : Policy) (t : Term) : Unlimited (policy.locate t) := by
  cases policy with
  | callByValue => exact Locate.unlimited_callByValue [] t
  | _ => exact .ok _

theorem Strategy.unlimited_step (S : Strategy) (t : Term) : Unlimited (S.step t).outcome := by
  rw [outcome_step]
  refine (S.policy.unlimited_locate t).bind fun found => ?_
  cases found with
  | none => exact .ok none
  | some path =>
    refine (t.unlimited_subterm _).bind fun redex => ?_
    refine (redex.unlimited_contract _).bind fun contractum => ?_
    exact (t.unlimited_replaceAt _ _).bind fun reduct => .ok _

end UntypedLambda

import UntypedLambda.Proofs.Notation
import UntypedLambda.Proofs.Strategy.Safety
import UntypedLambda.Proofs.Substitution.Log
/-!
# The log tells the run

The log of an evaluation within a budget is made of one block for each step that was tried and found a
redex, and a last line that says how the evaluation ended. A block begins with the redex, as it is
printed, and the path to it; the renamings of its contraction follow. If the budget is used up there is
one block more than the budget has steps, since the step that shows it is told like the others.
-/

namespace UntypedLambda

def Event.Shows (event : Event) (severity : Severity) (text : String) : Prop :=
  event.severity = severity ∧ event.message = .ok text

namespace Term

open Substitution

/-- The events tell the renamings of a contraction, in preorder: those of the binders that have to
be renamed and are below none that takes them along or stops the substitution. -/
def TellsRenamings (shadowing : Shadowing) (target : Name) (body arg contractum : Term)
    (events : List Event) : Prop :=
  ∃ captives paths, arg.freeVars = .ok captives ∧ paths.Pairwise Path.Precedes ∧
    (∀ path, path ∈ paths ↔ ∃ name, body.binderAt path = some name ∧
      name ∉ body.bindersAlong path ∧
      match shadowing with
      | .stop => name ∈ captives ∧ name ≠ target ∧ target ∉ body.bindersAlong path
      | .rename => name ∈ captives ∨ name = target) ∧
    List.Forall₂ (fun path event => ∃ old new, body.binderAt path = some old ∧
      contractum.binderAt path = some new ∧ event = .renamed old new ∧
      event.Shows .detail ("renamed binder " ++ old ++ " to " ++ new)) paths events

theorem tellsRenamings_contract {body arg : Term} (hbody : body.WellFormed) (harg : arg.WellFormed)
    (shadowing : Shadowing) (binder : Name) :
    ∃ contractum, ((app (lam binder body) arg).contract shadowing).outcome = .ok contractum ∧
      TellsRenamings shadowing binder body arg contractum
        ((app (lam binder body) arg).contract shadowing).log := by
  obtain ⟨σ, hσ, hready, rfl, rfl⟩ := exists_ofReplacement binder harg shadowing
  obtain ⟨hcaptives, rfl⟩ := eq_of_ofReplacement hσ
  obtain ⟨r, hr, _⟩ := hready.exists_byRules hbody
  rw [contract, subst_eq_byRules hσ]
  obtain ⟨paths, hlists, htold⟩ := tells_byRules hr
  refine ⟨r, hr, σ.captives, paths, hcaptives, hlists.1, fun path => ?_, htold.imp ?_⟩
  · exact (hlists.2 path).trans (exists_congr fun name => tellsAt_iff)
  · rintro path event ⟨old, new, ⟨hold, _⟩, hnew, rfl⟩
    exact ⟨old, new, hold, hnew, rfl, rfl, rfl⟩

end Term

namespace Strategy

open Term

variable {S : Strategy} {t t' : Term} {path : Path}

/-- The events tell one step: the redex and the path to it, then the renamings of its contraction. -/
def TellsStep (S : Strategy) (t : Term) (events : List Event) : Prop :=
  ∃ path binder body arg contractum text renamings, S.locate t = .ok (some path) ∧
    t.subterm path = .ok (app (lam binder body) arg) ∧
    ((app (lam binder body) arg).contract S.shadowing).outcome = .ok contractum ∧
    (app (lam binder body) arg).pretty = .ok text ∧
    events = .contracting S.policy (app (lam binder body) arg) path :: renamings ∧
    (Event.contracting S.policy (app (lam binder body) arg) path).Shows .detail
      (S.policy.name ++ ": contracting " ++ text ++ " at " ++ path.description) ∧
    TellsRenamings S.shadowing binder body arg contractum renamings

/-! ### What one step tells -/

theorem log_step_of_locate {redex contractum : Term} (hlocate : S.locate t = .ok (some path))
    (hredex : t.subterm path = .ok redex)
    (hcontract : (redex.contract S.shadowing).outcome = .ok contractum)
    (hreplace : t.replaceAt path contractum = .ok t') :
    (S.step t).log =
      .contracting S.policy redex path :: (redex.contract S.shadowing).log := by
  rw [step, Logged.log_bind_of_ok hlocate]
  simp only
  rw [Logged.log_bind_of_ok hredex, Logged.log_bind_of_ok rfl, Logged.log_bind_of_ok hcontract,
    Logged.log_bind_of_ok hreplace]
  simp

theorem log_step_of_halts (h : S.Halts t) : (S.step t).log = [] := by
  rw [step, Logged.log_bind_of_ok (halts_iff_locate_eq_none.1 h)]
  rfl

theorem tellsStep_of_contractsAt (ht : t.WellFormed) (hlocate : S.locate t = .ok (some path))
    (h : ContractsAt S.shadowing path t t') : S.TellsStep t (S.step t).log := by
  obtain ⟨redex, contractum, hredex, hisRedex, hcontract, hreplace⟩ := contractsAt_iff.1 h
  obtain ⟨binder, body, arg, rfl⟩ := eq_app_lam_of_isRedex hisRedex
  have hwf : (app (lam binder body) arg).WellFormed := ht.of_subterm hredex
  obtain ⟨text, htext⟩ := exists_pretty_of_plain hwf.foreignLeaves_eq_nil
  obtain ⟨contractum', hcontract', htells⟩ :=
    tellsRenamings_contract hwf.1.2 hwf.2 S.shadowing binder
  rw [hcontract] at hcontract'
  cases hcontract'
  refine ⟨path, binder, body, arg, contractum, text, _, hlocate, hredex, hcontract, htext,
    log_step_of_locate hlocate hredex hcontract hreplace, ⟨rfl, ?_⟩, htells⟩
  rw [Event.message, htext]
  rfl

/-! ### What an evaluation tells -/

theorem log_evaluateWithin_of_halts (h : S.Halts t) (budget left steps : Nat) :
    (S.evaluateWithin budget left steps t).log = [.normalForm S.policy steps] := by
  cases left <;>
  · rw [evaluateWithin, Logged.log_bind_of_ok h, log_step_of_halts h]
    rfl

theorem log_evaluateWithin_of_step (h : (S.step t).outcome = .ok (some t'))
    (budget left steps : Nat) :
    (S.evaluateWithin budget (left + 1) steps t).log =
      (S.step t).log ++ (S.evaluateWithin budget left (steps + 1) t').log := by
  rw [evaluateWithin, Logged.log_bind_of_ok h]

theorem log_evaluateWithin_zero_of_step (h : (S.step t).outcome = .ok (some t'))
    (budget steps : Nat) :
    (S.evaluateWithin budget 0 steps t).log = (S.step t).log ++ [.exhausted S.policy budget] := by
  rw [evaluateWithin, Logged.log_bind_of_ok h]
  rfl

/-- How the log of an evaluation is composed, if these are the terms of the run whose steps it tells. -/
def TellsRun (S : Strategy) (budget left steps : Nat) (t : Term) (terms : List Term)
    (log : List Event) : Prop :=
  (∃ r, S.Reaches terms.length t r ∧ S.Halts r ∧ terms.length ≤ left ∧
    log = terms.flatMap (fun s => (S.step s).log) ++
      [.normalForm S.policy (steps + terms.length)]) ∨
  (∀ k ≤ left, ∀ r, S.Reaches k t r → ¬ S.Halts r) ∧ terms.length = left + 1 ∧
    log = terms.flatMap (fun s => (S.step s).log) ++ [.exhausted S.policy budget]

theorem TellsRun.of_halts (h : S.Halts t) (budget left steps : Nat) :
    S.TellsRun budget left steps t [] (S.evaluateWithin budget left steps t).log := by
  refine .inl ⟨t, .refl t, h, Nat.zero_le left, ?_⟩
  rw [log_evaluateWithin_of_halts h]
  rfl

theorem not_halts_of_step (h : (S.step t).outcome = .ok (some t')) : ¬ S.Halts t := by
  intro hhalts
  rw [Halts, h] at hhalts
  cases hhalts

theorem TellsRun.of_last_step (h : (S.step t).outcome = .ok (some t')) (budget steps : Nat) :
    S.TellsRun budget 0 steps t [t] (S.evaluateWithin budget 0 steps t).log := by
  refine .inr ⟨?_, rfl, ?_⟩
  · intro k hk r hr
    rw [Nat.le_zero.1 hk, reaches_zero_iff] at hr
    rw [hr]
    exact not_halts_of_step h
  · rw [log_evaluateWithin_zero_of_step h, List.flatMap_singleton]

theorem TellsRun.of_step (h : (S.step t).outcome = .ok (some t')) {budget left steps : Nat}
    {terms : List Term}
    (hrest : S.TellsRun budget left (steps + 1) t' terms
      (S.evaluateWithin budget left (steps + 1) t').log) :
    S.TellsRun budget (left + 1) steps t (t :: terms)
      (S.evaluateWithin budget (left + 1) steps t).log := by
  rw [log_evaluateWithin_of_step h, TellsRun, List.length_cons, List.flatMap_cons, List.append_assoc,
    List.append_assoc]
  rcases hrest with ⟨r, hreaches, hhalts, hle, hlog⟩ | ⟨hnone, hlength, hlog⟩
  · refine .inl ⟨r, .head h hreaches, hhalts, Nat.succ_le_succ hle, ?_⟩
    rw [hlog, Nat.add_right_comm, Nat.add_assoc]
  · refine .inr ⟨?_, by rw [hlength], by rw [hlog]⟩
    intro k hk r hr
    cases k with
    | zero =>
      rw [reaches_zero_iff.1 hr]
      exact not_halts_of_step h
    | succ k =>
      obtain ⟨u, hu, hr⟩ := reaches_succ_iff.1 hr
      rw [h] at hu
      cases hu
      exact hnone k (Nat.le_of_succ_le_succ hk) r hr

theorem exists_tellsRun (S : Strategy) (ht : t.WellFormed) (budget left steps : Nat) :
    ∃ terms, S.Begins t terms.length terms ∧ (∀ s ∈ terms, S.TellsStep s (S.step s).log) ∧
      S.TellsRun budget left steps t terms (S.evaluateWithin budget left steps t).log := by
  induction left generalizing t steps with
  | zero =>
    rcases S.step_cases ht with ⟨_, hhalts⟩ | ⟨path, t', hlocate, hcontracts, hstep⟩
    · exact ⟨[], by simp [Begins], by simp, .of_halts hhalts budget 0 steps⟩
    · have htells := tellsStep_of_contractsAt ht hlocate hcontracts
      exact ⟨[t], S.begins_one t, by simpa using htells, .of_last_step hstep budget steps⟩
  | succ left ih =>
    rcases S.step_cases ht with ⟨_, hhalts⟩ | ⟨path, t', hlocate, hcontracts, hstep⟩
    · exact ⟨[], by simp [Begins], by simp, .of_halts hhalts budget (left + 1) steps⟩
    · have htells := tellsStep_of_contractsAt ht hlocate hcontracts
      obtain ⟨terms, hbegins, hsteps, hrun⟩ := ih (hcontracts.wellFormed ht) (steps + 1)
      exact ⟨t :: terms, begins_of_step hstep hbegins, List.forall_mem_cons.2 ⟨htells, hsteps⟩,
        hrun.of_step hstep⟩

/-- The log of an evaluation within a budget tells the steps of the run in order, the one beyond the
budget included, and last how it ended. -/
theorem evaluateBounded_tells_run (S : Strategy) {t : Term} (ht : t.WellFormed) (n : Nat) :
    (∃ terms : List Term, S.Begins t terms.length terms ∧
      (∀ s ∈ terms, S.TellsStep s (S.step s).log) ∧
      ((∃ k ≤ n, ∃ r, S.Reaches k t r ∧ S.Halts r ∧ terms.length = k ∧
        (S.evaluateBounded n t).log = terms.flatMap (fun s => (S.step s).log) ++
          [.normalForm S.policy k] ∧
        (Event.normalForm S.policy k).Shows .detail
          (S.policy.name ++ ": normal form after " ++ toString k ++ " steps")) ∨
      ((∀ k ≤ n, ∀ r, S.Reaches k t r → ¬ S.Halts r) ∧ terms.length = n + 1 ∧
        (S.evaluateBounded n t).log = terms.flatMap (fun s => (S.step s).log) ++
          [.exhausted S.policy n] ∧
        (Event.exhausted S.policy n).Shows .warning
          (S.policy.name ++ ": step budget of " ++ toString n ++ " exhausted")))) ∧
    ∀ (shadowing : Shadowing) (binder : Name) (body arg : Term), body.WellFormed → arg.WellFormed →
      ∃ contractum, ((app (lam binder body) arg).contract shadowing).outcome = .ok contractum ∧
        TellsRenamings shadowing binder body arg contractum
          ((app (lam binder body) arg).contract shadowing).log := by
  constructor
  · obtain ⟨terms, hbegins, hsteps, hrun⟩ := S.exists_tellsRun ht n n 0
    refine ⟨terms, hbegins, hsteps, ?_⟩
    rcases hrun with ⟨r, hreaches, hhalts, hle, hlog⟩ | ⟨hnone, hlength, hlog⟩
    · rw [Nat.zero_add] at hlog
      exact .inl ⟨terms.length, hle, r, hreaches, hhalts, rfl, hlog, rfl, rfl⟩
    · exact .inr ⟨hnone, hlength, hlog, rfl, rfl⟩
  · intro shadowing binder body arg hbody harg
    exact tellsRenamings_contract hbody harg shadowing binder

/-- Without any budget a step is tried all the same, and told with the binder that it renames. -/
theorem evaluateBounded_tells_run_discarded_step :
    ((⟨.normal, .stop⟩ : Strategy).evaluateBounded 0
        (app (lam "x" (lam "y" (var "x"))) (var "y"))).log =
      [.contracting .normal (app (lam "x" (lam "y" (var "x"))) (var "y")) [], .renamed "y" "y'",
        .exhausted .normal 0] ∧
    ∃ contractum, TellsRenamings .rename "x" (lam "x" (lam "x" (var "x"))) (var "y") contractum
      [.renamed "x" "x'"] := by
  obtain ⟨⟨terms, hbegins, _, hlog⟩, hcontract⟩ := evaluateBounded_tells_run ⟨.normal, .stop⟩
    (show (app (lam "x" (lam "y" (var "x"))) (var "y")).WellFormed by decide) 0
  constructor
  · have hstep : ((⟨.normal, .stop⟩ : Strategy).step
        (app (lam "x" (lam "y" (var "x"))) (var "y"))).log =
        [.contracting .normal (app (lam "x" (lam "y" (var "x"))) (var "y")) [],
          .renamed "y" "y'"] := by decide +kernel
    rcases hlog with ⟨k, hk, r, hr, hhalts, _⟩ | ⟨_, hlength, hlog, _⟩
    · rw [Nat.le_zero.1 hk, reaches_zero_iff] at hr
      rw [hr, halts_iff_locate_eq_none, locate, Policy.normal_locate] at hhalts
      cases hhalts
    · obtain ⟨s, rfl⟩ := List.length_eq_one_iff.1 hlength
      have hfirst := ((hbegins 0 s).1 rfl).2
      rw [reaches_zero_iff] at hfirst
      rw [hfirst, List.flatMap_singleton, hstep] at hlog
      exact hlog
  · obtain ⟨contractum, _, htells⟩ :=
      hcontract .rename "x" (lam "x" (lam "x" (var "x"))) (var "y") (by decide) (by decide)
    have hlog : ((app (lam "x" (lam "x" (lam "x" (var "x")))) (var "y")).contract .rename).log =
        [.renamed "x" "x'"] := by decide +kernel
    rw [hlog] at htells
    exact ⟨contractum, htells⟩

end Strategy

end UntypedLambda

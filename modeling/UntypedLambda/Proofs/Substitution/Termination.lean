import UntypedLambda.Proofs.Renaming
import UntypedLambda.Proofs.Substitution.Machine
/-!
# The substitution machine ends with one result

On terms without a foreign leaf the machine ends after a number of steps that the size of the term bounds,
with nothing left to do and a single result, and never lacks a result that it is to take. The result is
the one that the rules of substitution prescribe.

The tasks keep an account: a task takes so many results and gives back one. When the first of them is
carried out, what it gives and what is put in its place keep the account of the rest in balance, and at
the end one result is owed. The rules are stated here once more, as a relation and without the helpers that
the machine uses; they go on in the body of a renamed abstraction, which is no part of the term they are
asked about, and come to an end because renaming keeps the size.
-/

namespace UntypedLambda

namespace Term

variable {binder : Name} {body renamed : Term} {avoid : List Name}

theorem outcome_rename_eq_ok_iff :
    ((lam binder body).rename avoid).outcome = .ok renamed ↔
      ∃ fresh body', refresh binder body avoid = .ok (fresh, body') ∧ renamed = lam fresh body' := by
  cases hrefresh : refresh binder body avoid with
  | ok result =>
    obtain ⟨fresh, body'⟩ := result
    rw [outcome_rename_of_refresh hrefresh]
    simp [eq_comm]
  | error fault =>
    rw [rename, hrefresh, Logged.outcome_bind_of_error rfl]
    simp

theorem size_rename (h : ((lam binder body).rename avoid).outcome = .ok renamed) :
    renamed.size = (lam binder body).size := by
  obtain ⟨fresh, body', hrefresh, rfl⟩ := outcome_rename_eq_ok_iff.1 h
  rw [size, size, size_refresh hrefresh]

end Term

namespace Substitution

open Term

variable {σ : Substitution} {t u r body body' : Term} {binder fresh : Name}

/-! ### The rules -/

/-- An abstraction is entered in this form: renamed if it has to be, and not at all where the
substitution stops. -/
inductive Opens (σ : Substitution) : Name → Term → Name → Term → Prop
  | renamed {binder fresh : Name} {body body' : Term}
      (hgoes : ¬ (binder = σ.target ∧ σ.shadowing = .stop))
      (hrename : binder = σ.target ∨ binder ∈ σ.captives)
      (hlam : ((Term.lam binder body).rename (σ.captives ++ [σ.target])).outcome =
        .ok (.lam fresh body')) : Opens σ binder body fresh body'
  | kept {binder : Name} (htarget : binder ≠ σ.target) (hcaptive : binder ∉ σ.captives)
      (body : Term) : Opens σ binder body binder body

inductive Prescribes (σ : Substitution) : Term → Term → Prop
  | target : Prescribes σ (.var σ.target) σ.replacement
  | other {n : Name} (hne : n ≠ σ.target) : Prescribes σ (.var n) (.var n)
  | app {func func' arg arg' : Term} (hfunc : Prescribes σ func func')
      (harg : Prescribes σ arg arg') : Prescribes σ (.app func arg) (.app func' arg')
  | stopped (hstop : σ.shadowing = .stop) (body : Term) :
      Prescribes σ (.lam σ.target body) (.lam σ.target body)
  | entered {binder fresh : Name} {body body' result : Term}
      (hopens : σ.Opens binder body fresh body') (hbody : Prescribes σ body' result) :
      Prescribes σ (.lam binder body) (.lam fresh result)

/-- To apply the rules to the second term, they are applied to the first. -/
inductive Consults (σ : Substitution) : Term → Term → Prop
  | func (func arg : Term) : Consults σ func (.app func arg)
  | arg (func arg : Term) : Consults σ arg (.app func arg)
  | body {binder fresh : Name} {body body' : Term} (hopens : σ.Opens binder body fresh body') :
      Consults σ body' (.lam binder body)

theorem Opens.size_eq (h : σ.Opens binder body fresh body') : body'.size = body.size := by
  cases h with
  | renamed _ _ hlam =>
    have hsize := size_rename hlam
    simpa [size] using hsize
  | kept => rfl

theorem Consults.size_lt (h : σ.Consults u t) : u.size < t.size := by
  cases h with
  | func func arg =>
    rw [size]
    omega
  | arg func arg =>
    rw [size]
    omega
  | body hopens =>
    rw [size, hopens.size_eq]
    omega

/-- The rules come to an end, although they leave the term they are asked about. -/
theorem wellFounded_consults (σ : Substitution) : WellFounded σ.Consults :=
  Subrelation.wf Consults.size_lt (measure size).wf

theorem prescribes_of_byRules (h : (σ.byRules t).outcome = .ok r) : σ.Prescribes t r := by
  fun_induction byRules σ t generalizing r with
  | case1 name =>
    obtain rfl : σ.onVar name = r := Except.ok.inj h
    rw [onVar]
    split
    · rename_i hname
      rw [hname]
      exact .target
    · rename_i hname
      exact .other hname
  | case2 binder body hstop =>
    obtain ⟨rfl, hshadowing⟩ := stopsAt_eq_true_iff.1 hstop
    cases h
    exact .stopped hshadowing body
  | case3 binder body hstop hrename fresh renamed hrefresh ih =>
    rw [Logged.outcome_bind_of_ok rfl, Logged.outcome_bind] at h
    obtain ⟨r', hr', h⟩ := bind_eq_ok_iff.1 h
    cases h
    refine .entered (.renamed ?_ ?_ ?_) (ih hr')
    · exact fun hgoes => hstop (stopsAt_eq_true_iff.2 hgoes)
    · exact mustRename_eq_true_iff.1 hrename
    · exact outcome_rename_of_refresh hrefresh
  | case4 binder body hstop hrename fault hrefresh => cases h
  | case5 binder body hstop hrename ih =>
    rw [Logged.outcome_bind] at h
    obtain ⟨r', hr', h⟩ := bind_eq_ok_iff.1 h
    cases h
    rw [mustRename_eq_true_iff, not_or] at hrename
    exact .entered (.kept hrename.1 hrename.2 body) (ih hr')
  | case6 func arg ihf iha =>
    rw [Logged.outcome_bind] at h
    obtain ⟨func', hfunc, h⟩ := bind_eq_ok_iff.1 h
    rw [Logged.outcome_bind] at h
    obtain ⟨arg', harg, h⟩ := bind_eq_ok_iff.1 h
    cases h
    exact .app (ihf hfunc) (iha harg)
  | case7 leaf => cases h

theorem Prescribes.byRules_eq (h : σ.Prescribes t r) : (σ.byRules t).outcome = .ok r := by
  induction h with
  | target =>
    rw [byRules, onVar, if_pos rfl]
    rfl
  | other hne =>
    rw [byRules, onVar, if_neg hne]
    rfl
  | app _ _ ihf iha =>
    rw [byRules, Logged.outcome_bind_of_ok ihf, Logged.outcome_bind_of_ok iha]
    rfl
  | stopped hstop body =>
    rw [byRules, if_pos (stopsAt_eq_true_iff.2 ⟨rfl, hstop⟩)]
    rfl
  | entered hopens _ ih =>
    cases hopens with
    | renamed hgoes hrename hlam =>
      obtain ⟨_, _, hrefresh, heq⟩ := outcome_rename_eq_ok_iff.1 hlam
      cases heq
      rw [byRules, if_neg (mt stopsAt_eq_true_iff.1 hgoes),
        if_pos (mustRename_eq_true_iff.2 hrename)]
      split
      · rename_i hrefresh'
        cases hrefresh.symm.trans hrefresh'
        rw [Logged.outcome_bind_of_ok rfl, Logged.outcome_bind_of_ok ih]
        rfl
      · rename_i hrefresh'
        cases hrefresh.symm.trans hrefresh'
    | kept htarget hcaptive =>
      have hgoes : ¬ (_ = σ.target ∧ σ.shadowing = .stop) := fun hstop => htarget hstop.1
      rw [byRules, if_neg (mt stopsAt_eq_true_iff.1 hgoes),
        if_neg (mt mustRename_eq_true_iff.1 (not_or.2 ⟨htarget, hcaptive⟩)),
        Logged.outcome_bind_of_ok ih]
      rfl

/-! ### The account of the tasks -/

/-- How many results a task takes. It gives back one. -/
def Task.takes : Task → Nat
  | visit _ => 0
  | bind _ => 1
  | join => 2

/-- With so many results to begin with, each task in turn finds those that it takes, and one is left at
the end. -/
def Supplied : List Task → Nat → Prop
  | [], results => results = 1
  | task :: tasks, results => task.takes ≤ results ∧ Supplied tasks (results - task.takes + 1)

def Task.Plain : Task → Prop
  | visit t => t.foreignLeaves = []
  | _ => True

section Supplied

variable {tasks : List Task} {results : Nat}

@[simp] theorem supplied_visit :
    Supplied (.visit t :: tasks) results ↔ Supplied tasks (results + 1) := by
  simp [Supplied, Task.takes]

@[simp] theorem supplied_bind :
    Supplied (.bind binder :: tasks) (results + 1) ↔ Supplied tasks (results + 1) := by
  simp [Supplied, Task.takes]

@[simp] theorem supplied_join :
    Supplied (.join :: tasks) (results + 2) ↔ Supplied tasks (results + 1) := by
  simp [Supplied, Task.takes]

end Supplied

namespace State

variable {s s' : State} {outcome : Except Fault Term} {log : List Event} {steps : Nat}

/-- The tasks are supplied, and none of them meets a foreign leaf. -/
structure Sound (s : State) : Prop where
  supplied : Supplied s.tasks s.results.length
  plain : ∀ task ∈ s.tasks, task.Plain

theorem sound_start (ht : t.foreignLeaves = []) : (start t).Sound where
  supplied := by simp [start, Supplied]
  plain := by simpa [start, Task.Plain] using ht

theorem Sound.of_step (h : s.Sound) (hstep : s.step σ = .running s') : s'.Sound := by
  obtain ⟨hsupplied, hplain⟩ := h
  revert hstep
  fun_cases State.step σ s <;> intro hstep <;> cases hstep <;>
    obtain ⟨hfirst, hrest⟩ := List.forall_mem_cons.1 hplain
  case case2 name tasks results log => exact ⟨by simpa using hsupplied, hrest⟩
  case case3 binder body tasks results log hstop => exact ⟨by simpa using hsupplied, hrest⟩
  case case4 binder body tasks results log hstop hrename fresh renamed hrefresh =>
    have hrenamed : (Task.visit renamed).Plain := (plain_of_refresh hrefresh).2
    exact ⟨by simpa using hsupplied,
      List.forall_mem_cons.2 ⟨hrenamed, List.forall_mem_cons.2 ⟨trivial, hrest⟩⟩⟩
  case case6 binder body tasks results log hstop hrename =>
    have hbody : (Task.visit body).Plain := hfirst
    exact ⟨by simpa using hsupplied,
      List.forall_mem_cons.2 ⟨hbody, List.forall_mem_cons.2 ⟨trivial, hrest⟩⟩⟩
  case case7 func arg tasks results log =>
    obtain ⟨hfunc, harg⟩ : (Task.visit func).Plain ∧ (Task.visit arg).Plain :=
      List.append_eq_nil_iff.1 hfirst
    exact ⟨by simpa using hsupplied, List.forall_mem_cons.2 ⟨hfunc,
      List.forall_mem_cons.2 ⟨harg, List.forall_mem_cons.2 ⟨trivial, hrest⟩⟩⟩⟩
  case case9 binder tasks body results log => exact ⟨by simpa using hsupplied, hrest⟩
  case case10 tasks arg func results log => exact ⟨by simpa using hsupplied, hrest⟩

/-- The machine is over only when nothing is left to do, and has one result then. -/
theorem Sound.eq_of_over (h : s.Sound) (hstep : s.step σ = .over outcome log) :
    ∃ r, s = ⟨[], [r], log⟩ ∧ outcome = .ok r := by
  obtain ⟨hsupplied, hplain⟩ := h
  revert hstep
  fun_cases State.step σ s <;> intro hstep <;> cases hstep
  case case1 result results =>
    obtain rfl : results = [] := by simpa [Supplied] using hsupplied
    exact ⟨result, rfl, rfl⟩
  case case5 binder body tasks results hstop hrename fault hrefresh =>
    obtain ⟨leaf, others, hleaves, _⟩ := foreign_of_refresh_eq_error hrefresh
    have hnone : body.foreignLeaves = [] := hplain _ List.mem_cons_self
    rw [hleaves] at hnone
    cases hnone
  case case8 leaf tasks results =>
    have hnone : (foreign leaf).foreignLeaves = [] := hplain _ List.mem_cons_self
    cases hnone
  case case11 tasks results hend hvar hlam happ hforeign hbind hjoin =>
    -- No other case applies, so a result was lacking, which the account excludes.
    exfalso
    cases tasks with
    | nil =>
      obtain ⟨r, hr⟩ := List.length_eq_one_iff.1 hsupplied
      exact hend r [] rfl hr
    | cons task tasks =>
      have htakes : task.takes ≤ results.length := hsupplied.1
      cases task with
      | visit t =>
        cases t with
        | var name => exact hvar name tasks rfl
        | lam binder body => exact hlam binder body tasks rfl
        | app func arg => exact happ func arg tasks rfl
        | foreign leaf => exact hforeign leaf tasks rfl
      | bind binder =>
        obtain ⟨body, rest, hresults⟩ := List.exists_cons_of_length_pos htakes
        exact hbind binder tasks body rest rfl hresults
      | join =>
        have hlength : 2 ≤ results.length := htakes
        obtain ⟨arg, rest, rfl⟩ := List.exists_cons_of_length_pos (Nat.zero_lt_of_lt hlength)
        obtain ⟨func, rest, rfl⟩ := List.exists_cons_of_length_pos (Nat.lt_of_succ_lt_succ hlength)
        exact hjoin tasks arg func rest rfl rfl

/-! ### Runs of the machine -/

inductive Reaches (σ : Substitution) : Nat → State → State → Prop
  | refl (s : State) : Reaches σ 0 s s
  | head {s s' s'' : State} {steps : Nat} (first : s.step σ = .running s')
      (rest : Reaches σ steps s' s'') : Reaches σ (steps + 1) s s''

theorem Reaches.sound (h : Reaches σ steps s s') (hs : s.Sound) : s'.Sound := by
  induction h with
  | refl => exact hs
  | head first _ ih => exact ih (hs.of_step first)

theorem Reaches.weight_le (h : Reaches σ steps s s') : steps + s'.weight ≤ s.weight := by
  induction h with
  | refl => omega
  | head first _ ih =>
    have hlt := weight_step_lt first
    omega

theorem Reaches.run_eq (h : Reaches σ steps s s') : s.run σ = s'.run σ := by
  induction h with
  | refl => rfl
  | head first _ ih => rw [run_of_running first, ih]

theorem Sound.exists_reaches (σ : Substitution) (h : s.Sound) :
    ∃ steps r log, Reaches σ steps s ⟨[], [r], log⟩ := by
  fun_induction State.run σ s with
  | case1 s s' hstep ih =>
    obtain ⟨steps, r, log, hrest⟩ := ih (h.of_step hstep)
    exact ⟨steps + 1, r, log, .head hstep hrest⟩
  | case2 s outcome log hstep =>
    obtain ⟨r, rfl, _⟩ := h.eq_of_over hstep
    exact ⟨0, r, log, .refl _⟩

end State

end Substitution

open Substitution

namespace Term

/-- The machine ends with exactly one result, the only one that the rules prescribe, and no task
lacks a result; the rules consult smaller terms only. -/
theorem subst_ends_by_rules {t replacement : Term} (ht : t.foreignLeaves = [])
    (hreplacement : replacement.foreignLeaves = []) (target : Name) (shadowing : Shadowing) :
    ∃ (σ : Substitution) (steps : Nat) (r : Term) (log : List Event),
      replacement.freeVars = .ok σ.captives ∧
      σ = ⟨target, replacement, σ.captives, shadowing⟩ ∧
      ofReplacement target replacement shadowing = .ok σ ∧
      State.Reaches σ steps (State.start t) ⟨[], [r], log⟩ ∧
      (∀ taken s, State.Reaches σ taken (State.start t) s → taken ≤ 2 * t.size ∧
        (s.tasks = [] → s.results.length = 1) ∧
        (∀ task tasks, s.tasks = task :: tasks → task.takes ≤ s.results.length) ∧
        ∀ log, s.step σ ≠ .over (.error .noResult) log) ∧
      (t.subst target replacement shadowing).outcome = .ok r ∧
      (∀ result, σ.Prescribes t result ↔ result = r) ∧
      WellFounded σ.Consults ∧
      ∀ binder body avoid renamed, ((lam binder body).rename avoid).outcome = .ok renamed →
        renamed.size = (lam binder body).size := by
  obtain ⟨captives, hcaptives, _⟩ := freeVars_of_plain hreplacement
  have hσ : ofReplacement target replacement shadowing =
      .ok ⟨target, replacement, captives, shadowing⟩ := ofReplacement_of_freeVars hcaptives shadowing
  generalize hsubst : (⟨target, replacement, captives, shadowing⟩ : Substitution) = σ at hσ
  obtain ⟨steps, r, log, hreaches⟩ := (State.sound_start ht).exists_reaches σ
  have hresult : (σ.byRules t).outcome = .ok r := by
    rw [← State.run_start, hreaches.run_eq, State.run_of_over rfl]
  have hweight : (State.start t).weight = 2 * t.size := by
    simp [State.start, State.weight, Task.weight]
  refine ⟨σ, steps, r, log, hsubst ▸ hcaptives, hsubst ▸ rfl, hσ, hreaches, ?_, ?_, ?_,
    wellFounded_consults σ, fun binder body avoid renamed => size_rename⟩
  · intro taken s hs
    have hsound := hs.sound (State.sound_start ht)
    have hbound := hs.weight_le
    refine ⟨by omega, ?_, ?_, ?_⟩
    · intro htasks
      have hsupplied := hsound.supplied
      rw [htasks] at hsupplied
      exact hsupplied
    · intro task tasks htasks
      have hsupplied := hsound.supplied
      rw [htasks] at hsupplied
      exact hsupplied.1
    · intro log' hover
      obtain ⟨_, _, hok⟩ := hsound.eq_of_over hover
      cases hok
  · rw [subst_eq_byRules hσ, hresult]
  · intro result
    constructor
    · intro hprescribes
      exact Except.ok.inj (hprescribes.byRules_eq.symm.trans hresult)
    · rintro rfl
      exact prescribes_of_byRules hresult

/-- The outer binder is renamed because it would capture, and the inner one because it is the
target. -/
theorem subst_ends_by_rules_renamed_twice :
    ∃ σ steps log, State.Reaches σ steps
        (State.start (lam "y" (app (var "x") (lam "x" (var "y")))))
        ⟨[], [lam "y'" (app (var "y") (lam "x'" (var "y'")))], log⟩ ∧
      σ.Prescribes (lam "y" (app (var "x") (lam "x" (var "y"))))
        (lam "y'" (app (var "y") (lam "x'" (var "y'")))) := by
  have ht : (lam "y" (app (var "x") (lam "x" (var "y")))).foreignLeaves = [] := rfl
  have hreplacement : (var "y").foreignLeaves = [] := rfl
  have hresult : ((lam "y" (app (var "x") (lam "x" (var "y")))).subst "x" (var "y") .rename).outcome =
      .ok (lam "y'" (app (var "y") (lam "x'" (var "y'")))) := by decide +kernel
  obtain ⟨σ, steps, r, log, _, _, _, hreaches, _, hr, hprescribes, _⟩ :=
    subst_ends_by_rules ht hreplacement "x" .rename
  cases hresult.symm.trans hr
  exact ⟨σ, steps, log, hreaches, (hprescribes _).2 rfl⟩

end Term

end UntypedLambda

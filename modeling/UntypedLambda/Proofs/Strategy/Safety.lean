import UntypedLambda.Proofs.Positions
import UntypedLambda.Proofs.Strategy.Normalisation
/-!
# Runs do not fail, and closed runs do not get stuck

Everything that a step is made of succeeds on well-formed terms and gives well-formed terms again:
collecting names, renaming, substitution and the replacement of a subterm. A path that was located
leads to a redex, so a step succeeds as well, and well-formedness is kept along a run. The one fault
that is left to an evaluation is that its budget was used up.

The two policies that never enter an abstraction can stop before a normal form is reached. From a
closed term they stop at an abstraction and nowhere else, since what would hold them up is a variable
at the head.
-/

namespace UntypedLambda

namespace Term

variable {t part new : Term} {path : Path}

theorem WellFormed.of_subterm (ht : t.WellFormed) (h : t.subterm path = .ok part) :
    part.WellFormed := by
  induction path generalizing t with
  | nil =>
    cases h
    exact ht
  | cons edge path ih =>
    obtain ⟨next, hnext, h⟩ := bind_eq_ok_iff.1 h
    rcases child_eq_ok hnext with ⟨binder, rfl, rfl⟩ | ⟨arg, rfl, rfl⟩ | ⟨func, rfl, rfl⟩
    · exact ih ht.2 h
    · exact ih ht.1 h
    · exact ih ht.2 h

theorem WellFormed.exists_replaceAt (ht : t.WellFormed) (hpart : t.subterm path = .ok part)
    (hnew : new.WellFormed) : ∃ t', t.replaceAt path new = .ok t' ∧ t'.WellFormed := by
  induction path generalizing t with
  | nil => exact ⟨new, rfl, hnew⟩
  | cons edge path ih =>
    obtain ⟨next, hnext, hpart⟩ := bind_eq_ok_iff.1 hpart
    rcases child_eq_ok hnext with ⟨binder, rfl, rfl⟩ | ⟨arg, rfl, rfl⟩ | ⟨func, rfl, rfl⟩
    · obtain ⟨next', hreplace, hwf⟩ := ih ht.2 hpart
      exact ⟨lam binder next', replaceAt_cons_eq_ok_iff.2 ⟨_, _, rfl, hreplace, rfl⟩, ht.1, hwf⟩
    · obtain ⟨next', hreplace, hwf⟩ := ih ht.1 hpart
      exact ⟨app next' arg, replaceAt_cons_eq_ok_iff.2 ⟨_, _, rfl, hreplace, rfl⟩, hwf, ht.2⟩
    · obtain ⟨next', hreplace, hwf⟩ := ih ht.2 hpart
      exact ⟨app func next', replaceAt_cons_eq_ok_iff.2 ⟨_, _, rfl, hreplace, rfl⟩, ht.1, hwf⟩

theorem WellFormed.exists_rename (ht : t.WellFormed) (hvalue : t.isValue = true)
    (avoid : List Name) : ∃ t', (t.rename avoid).outcome = .ok t' ∧ t'.WellFormed := by
  cases t with
  | lam binder body =>
    obtain ⟨fresh, body', hrefresh, hfresh, hwf, _⟩ := exists_refresh ht.1 ht.2 avoid
    exact ⟨lam fresh body', outcome_rename_of_refresh hrefresh, hfresh, hwf⟩
  | _ => cases hvalue

/-- The operations that a step is made of succeed on a term, and the terms that they give are well
formed. -/
structure Operable (t : Term) : Prop where
  freeVars : ∃ names, t.freeVars = .ok names
  allNames : ∃ names, t.allNames = .ok names
  rename : ∀ avoid, t.isValue = true → ∃ t', (t.rename avoid).outcome = .ok t' ∧ t'.WellFormed
  retire : ∀ name avoid current count, current ≠ "" →
    ∃ t' count', t.retire name avoid current count = .ok (t', count') ∧ t'.WellFormed
  subst : ∀ target replacement shadowing, replacement.WellFormed →
    ∃ t', (t.subst target replacement shadowing).outcome = .ok t' ∧ t'.WellFormed
  replaceAt : ∀ path part new, t.subterm path = .ok part → new.WellFormed →
    ∃ t', t.replaceAt path new = .ok t' ∧ t'.WellFormed

theorem WellFormed.operable (ht : t.WellFormed) : t.Operable where
  freeVars := by
    obtain ⟨names, hnames, _⟩ := freeVars_of_plain ht.foreignLeaves_eq_nil
    exact ⟨names, hnames⟩
  allNames := by
    obtain ⟨names, hnames, _⟩ := allNames_of_plain ht.foreignLeaves_eq_nil
    exact ⟨names, hnames⟩
  rename avoid hvalue := ht.exists_rename hvalue avoid
  retire name avoid current count hcurrent := exists_retire ht hcurrent name avoid count
  subst target replacement shadowing hreplacement := by
    obtain ⟨r, hr, hwf, _⟩ := exists_subst ht hreplacement target shadowing
    exact ⟨r, hr, hwf⟩
  replaceAt path part new hpart hnew := ht.exists_replaceAt hpart hnew

end Term

namespace Strategy

open Term

variable {S : Strategy} {t s : Term} {path : Path} {k : Nat}

/-! ### Steps and runs from a well-formed term -/

theorem exists_redex_of_locate (h : S.locate t = .ok (some path)) :
    ∃ binder body arg, t.subterm path = .ok (app (lam binder body) arg) ∧
      (S.policy = .callByValue → arg.isValue = true) := by
  obtain ⟨redex, hsubterm, hredex⟩ := Policy.hasRedexAt_of_locate h
  obtain ⟨binder, body, arg, rfl⟩ := eq_app_lam_of_isRedex hredex
  refine ⟨binder, body, arg, hsubterm, fun hpolicy => ?_⟩
  rw [locate, hpolicy] at h
  obtain ⟨rest, func, arg', hpath, hfound, _, harg⟩ := Locate.callByValue_eq_some h
  obtain rfl : path = rest := hpath
  rw [hsubterm] at hfound
  cases hfound
  exact harg

theorem evaluateWithin_of_wellFormed (S : Strategy) (ht : t.WellFormed) (budget left steps : Nat) :
    (∃ r, (S.evaluateWithin budget left steps t).outcome = .ok r ∧ r.WellFormed) ∨
    ∃ last, (S.evaluateWithin budget left steps t).outcome =
      .error (.stepLimit S.policy.name budget last) ∧ last.WellFormed := by
  cases houtcome : (S.evaluateWithin budget left steps t).outcome with
  | ok r =>
    obtain ⟨k, _, hreaches, _⟩ := evaluateWithin_eq_ok_iff.1 houtcome
    exact .inl ⟨r, rfl, hreaches.wellFormed ht⟩
  | error fault =>
    rcases evaluateWithin_eq_error_iff.1 houtcome with ⟨k, _, s, hs, hfault⟩ | ⟨s, _, hs, _, rfl⟩
    · obtain ⟨next, hnext⟩ := S.exists_step (hs.wellFormed ht)
      rw [hfault] at hnext
      cases hnext
    · exact .inr ⟨s, rfl, hs.wellFormed ht⟩

/-- No run from a well-formed term fails before its budget is used up, and neither does anything that a
step of it is made of. -/
theorem runs_never_fail (S : Strategy) {t : Term} (ht : t.WellFormed) :
    t.Operable ∧
    (∃ found, S.locate t = .ok found) ∧
    (∀ path, S.locate t = .ok (some path) → ∃ binder body arg contractum t',
      (∀ front rest, path = front ++ rest → ∃ part, t.subterm front = .ok part) ∧
      t.subterm path = .ok (app (lam binder body) arg) ∧
      (S.policy = .callByValue → arg.isValue = true) ∧ body.Operable ∧ arg.Operable ∧
      ((app (lam binder body) arg).contract S.shadowing).outcome = .ok contractum ∧
      t.replaceAt path contractum = .ok t' ∧
      (S.step t).outcome = .ok (some t') ∧ t'.WellFormed) ∧
    (∀ k s, S.Reaches k t s → s.WellFormed ∧ ∃ next, (S.step s).outcome = .ok next) ∧
    ∀ budget : Int, 0 ≤ budget →
      (∃ r, (S.evaluateBounded budget t).outcome = .ok r ∧ r.WellFormed) ∨
      ∃ last, (S.evaluateBounded budget t).outcome =
        .error (.stepLimit S.policy.name budget last) ∧ last.WellFormed := by
  refine ⟨ht.operable, S.policy.exists_locate (.inr ht.proper), ?_, ?_, ?_⟩
  · intro path hlocate
    obtain ⟨binder, body, arg, hsubterm, harg⟩ := exists_redex_of_locate hlocate
    have hpath : t.HasRedexAt path := Policy.hasRedexAt_of_locate hlocate
    obtain ⟨t', hcontracts, hwf⟩ := hpath.exists_contractsAt ht S.shadowing
    obtain ⟨redex, contractum, hfound, _, hcontract, hreplace⟩ := contractsAt_iff.1 hcontracts
    rw [hsubterm] at hfound
    cases hfound
    have hredex := ht.of_subterm hsubterm
    refine ⟨binder, body, arg, contractum, t', ?_, hsubterm, harg, hredex.1.2.operable,
      hredex.2.operable, hcontract, hreplace,
      outcome_step_eq_some_iff.2 ⟨path, hlocate, hcontracts⟩, hwf⟩
    rintro front rest rfl
    obtain ⟨part, hpart, _⟩ := exists_subterm_of_append hsubterm
    exact ⟨part, hpart⟩
  · intro k s hs
    have hwf := hs.wellFormed ht
    exact ⟨hwf, S.exists_step hwf⟩
  · intro budget hbudget
    obtain ⟨n, rfl⟩ := Int.eq_ofNat_of_zero_le hbudget
    exact S.evaluateWithin_of_wellFormed ht n n 0

/-- The redex in the argument comes first, and contracting it renames a binder. -/
theorem runs_never_fail_renamed_binder :
    ((⟨.callByValue, .rename⟩ : Strategy).step (.app (.lam "x" (.var "x"))
        (.app (.lam "y" (.lam "y" (.var "y"))) (.lam "z" (.var "z"))))).outcome =
      .ok (some (.app (.lam "x" (.var "x")) (.lam "y'" (.var "y'")))) ∧
    (Term.app (.lam "x" (.var "x")) (.lam "y'" (.var "y'"))).WellFormed := by
  obtain ⟨_, _, hsteps, _⟩ := runs_never_fail ⟨.callByValue, .rename⟩
    (show (Term.app (.lam "x" (.var "x")) (.app (.lam "y" (.lam "y" (.var "y")))
      (.lam "z" (.var "z")))).WellFormed by decide)
  obtain ⟨_, _, _, _, t', _, _, _, _, _, _, _, hstep, hwf⟩ := hsteps [.arg] (by cbv)
  have hrenamed : ((⟨.callByValue, .rename⟩ : Strategy).step (.app (.lam "x" (.var "x"))
      (.app (.lam "y" (.lam "y" (.var "y"))) (.lam "z" (.var "z"))))).outcome =
        .ok (some (.app (.lam "x" (.var "x")) (.lam "y'" (.var "y'")))) := by decide +kernel
  cases hstep.symm.trans hrenamed
  exact ⟨hstep, hwf⟩

end Strategy

/-! ### Closed terms -/

theorem Term.Closed.freeVars_eq_nil {t : Term} (h : t.Closed) (ht : t.WellFormed) :
    t.freeVars = .ok [] := by
  obtain ⟨names, hnames, hmem⟩ := freeVars_of_plain ht.foreignLeaves_eq_nil
  rw [hnames, Except.ok.injEq, List.eq_nil_iff_forall_not_mem]
  intro n hn
  rw [hmem, h] at hn
  exact List.not_mem_nil hn

theorem Locate.isValue_of_lazy_eq_none {t : Term} {depth : Nat} (ht : t.WellFormed)
    (hclosed : t.Closed) (h : lazy depth t = none) : t.isValue = true := by
  induction t generalizing depth with
  | var name => cases hclosed
  | lam binder body _ => rfl
  | app func arg ihf _ =>
    obtain ⟨hfunc, _⟩ := List.append_eq_nil_iff.1 hclosed
    rw [lazy] at h
    split at h
    · cases h
    · rename_i hvalue
      exact absurd (ihf ht.1 hfunc h) hvalue
  | foreign leaf => exact ht.elim

namespace Strategy

open Term

variable {S : Strategy} {t r : Term}

theorem locate_eq_none_iff_isValue (hweak : S.policy = .callByValue ∨ S.policy = .lazy)
    (ht : t.WellFormed) (hclosed : t.Closed) : S.locate t = .ok none ↔ t.isValue = true := by
  rw [locate]
  constructor
  · intro h
    rcases hweak with hpolicy | hpolicy
    · rw [hpolicy] at h
      exact Locate.isValue_of_callByValue_eq_none ht hclosed h
    · rw [hpolicy] at h
      exact Locate.isValue_of_lazy_eq_none ht hclosed (Except.ok.inj h)
  · intro hvalue
    cases t with
    | lam binder body => rcases hweak with hpolicy | hpolicy <;> rw [hpolicy] <;> rfl
    | _ => cases hvalue

theorem Reaches.isValue_of_halts {k : Nat} (h : S.Reaches k t r) (hhalts : S.Halts r)
    (hweak : S.policy = .callByValue ∨ S.policy = .lazy) (ht : t.WellFormed)
    (hclosed : t.Closed) : r.isValue = true := by
  have hiff := locate_eq_none_iff_isValue hweak (h.wellFormed ht) (h.closed ht hclosed)
  exact hiff.1 (halts_iff_locate_eq_none.1 hhalts)

/-- Under the policies that never enter an abstraction a run from a closed term stays closed and ends at
an abstraction, if it ends. -/
theorem closed_runs_end_in_values (S : Strategy)
    (hweak : S.policy = .callByValue ∨ S.policy = .lazy) {t : Term} (ht : t.WellFormed)
    (hclosed : t.freeVars = .ok []) :
    (∀ count, ∃ terms, S.Begins t count terms ∧
      (Trace.take S count (.start t)).outcome = .ok terms ∧
      ∀ s ∈ terms, s.freeVars = .ok [] ∧
        ((S.step s).outcome = .ok none ↔ s.isValue = true) ∧
        (s.isValue = false → ∃ u, (S.step s).outcome = .ok (some u))) ∧
    (∀ fuel r, (S.evaluate fuel t).outcome = .ok (some r) → r.isValue = true) ∧
    ∀ budget r, (S.evaluateBounded budget t).outcome = .ok r → r.isValue = true := by
  have hfree : t.Closed := closed_of_freeVars ht hclosed
  refine ⟨?_, ?_, ?_⟩
  · intro count
    obtain ⟨terms, hbegins, hterms⟩ := Trace.exists_take_of_wellFormed S ht count
    refine ⟨terms, hbegins, hterms, ?_⟩
    intro s hs
    obtain ⟨_, hreaches⟩ := hbegins.exists_reaches hs
    have hwf : s.WellFormed := hreaches.wellFormed ht
    have hsclosed : s.Closed := hreaches.closed ht hfree
    have hvalue := locate_eq_none_iff_isValue hweak hwf hsclosed
    refine ⟨hsclosed.freeVars_eq_nil hwf, halts_iff_locate_eq_none.trans hvalue, ?_⟩
    intro hnot
    rcases S.step_cases hwf with ⟨hlocate, _⟩ | ⟨_, u, _, _, hstep⟩
    · rw [hvalue.1 hlocate] at hnot
      cases hnot
    · exact ⟨u, hstep⟩
  · intro fuel r hr
    obtain ⟨k, _, hreaches, hhalts⟩ := evaluateFrom_eq_some_iff.1 hr
    exact hreaches.isValue_of_halts hhalts hweak ht hfree
  · intro budget r hr
    cases budget with
    | ofNat n =>
      obtain ⟨k, _, hreaches, hhalts⟩ := evaluateWithin_eq_ok_iff.1 hr
      exact hreaches.isValue_of_halts hhalts hweak ht hfree
    | negSucc n => cases hr

/-- The function has to be brought to an abstraction before the argument is met. -/
theorem closed_runs_end_in_values_nested :
    (Trace.take ⟨.callByValue, .stop⟩ 4 (.start (.app (.app (.lam "x" (.var "x"))
        (.lam "y" (.var "y"))) (.lam "z" (.var "z"))))).outcome =
      .ok [.app (.app (.lam "x" (.var "x")) (.lam "y" (.var "y"))) (.lam "z" (.var "z")),
        .app (.lam "y" (.var "y")) (.lam "z" (.var "z")), .lam "z" (.var "z")] ∧
    (∃ u, ((⟨.callByValue, .stop⟩ : Strategy).step
      (.app (.lam "y" (.var "y")) (.lam "z" (.var "z")))).outcome = .ok (some u)) ∧
    ((⟨.callByValue, .stop⟩ : Strategy).step (.lam "z" (.var "z"))).outcome = .ok none := by
  have hclosed : (Term.app (.app (.lam "x" (.var "x")) (.lam "y" (.var "y")))
      (.lam "z" (.var "z"))).freeVars = .ok [] := by cbv
  have htrace : (Trace.take ⟨.callByValue, .stop⟩ 4 (.start (.app (.app (.lam "x" (.var "x"))
      (.lam "y" (.var "y"))) (.lam "z" (.var "z"))))).outcome =
      .ok [.app (.app (.lam "x" (.var "x")) (.lam "y" (.var "y"))) (.lam "z" (.var "z")),
        .app (.lam "y" (.var "y")) (.lam "z" (.var "z")), .lam "z" (.var "z")] := by
    decide +kernel
  obtain ⟨terms, _, hterms, hall⟩ :=
    (closed_runs_end_in_values ⟨.callByValue, .stop⟩ (.inl rfl) (by decide) hclosed).1 4
  cases hterms.symm.trans htrace
  obtain ⟨_, _, hgoes⟩ := hall (.app (.lam "y" (.var "y")) (.lam "z" (.var "z"))) (by simp)
  obtain ⟨_, hstops, _⟩ := hall (.lam "z" (.var "z")) (by simp)
  exact ⟨htrace, hgoes rfl, hstops.2 rfl⟩

end Strategy

end UntypedLambda

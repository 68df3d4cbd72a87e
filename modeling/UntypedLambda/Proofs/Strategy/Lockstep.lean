import UntypedLambda.Proofs.Strategy.Run
import Mathlib.Data.List.Forall2
/-!
# Two runs side by side

Runs depend neither on the choice of bound names nor on the treatment of shadowing. Two strategies
with one policy, started on alpha-equivalent terms, go in lockstep: each step of one is answered by a
step of the other, and the terms they reach are alpha-equivalent again. The names that the two runs
put on their binders drift apart, so the terms are compared through their nameless forms, on which
both contract at the same path.
-/

namespace UntypedLambda

open Term

/-- Well-formed terms that differ in the choice of bound names at most. -/
structure Alike (t u : Term) : Prop where
  left : t.WellFormed
  right : u.WellFormed
  alphaEq : t.AlphaEq u

namespace Alike

variable {t u t' u' : Term}

theorem symm (h : Alike t u) : Alike u t := by
  obtain ⟨T, hT⟩ := h.left.exists_encodeIn fun _ => id
  exact ⟨h.right, h.left, alphaUnder_of_encodeIn_eq (AlphaUnder.encodeIn_eq h.alphaEq hT) hT⟩

theorem contractsAt (h : Alike t u) {path : Path} {mode₁ mode₂ : Shadowing}
    (ht : ContractsAt mode₁ path t t') (hu : ContractsAt mode₂ path u u') : Alike t' u' := by
  refine ⟨ht.wellFormed h.left, hu.wellFormed h.right, ?_⟩
  obtain ⟨T, hT⟩ := h.left.exists_encodeIn fun _ => id
  have hU : u.encodeIn t.free = .ok T := AlphaUnder.encodeIn_eq h.alphaEq hT
  obtain ⟨T', hT', hleft⟩ := ht.encodeIn_eq h.left hT
  obtain ⟨U', hU', hright⟩ := hu.encodeIn_eq h.right hU
  rw [hright.unique hleft] at hU'
  exact alphaUnder_of_encodeIn_eq hT' hU'

variable (policy : Policy)

theorem locate_eq (h : Alike t u) (mode₁ mode₂ : Shadowing) :
    (⟨policy, mode₁⟩ : Strategy).locate t = (⟨policy, mode₂⟩ : Strategy).locate u :=
  policy.locate_eq_of_alphaEq h.alphaEq

variable {mode₁ mode₂ : Shadowing}

theorem halts (h : Alike t u) (hhalts : (⟨policy, mode₁⟩ : Strategy).Halts t) :
    (⟨policy, mode₂⟩ : Strategy).Halts u := by
  rw [Strategy.halts_iff_locate_eq_none, ← h.locate_eq policy mode₁ mode₂]
  exact Strategy.halts_iff_locate_eq_none.1 hhalts

/-- A step of one run is answered by a step of the other. -/
theorem exists_step (h : Alike t u)
    (hstep : ((⟨policy, mode₁⟩ : Strategy).step t).outcome = .ok (some t')) :
    ∃ u', ((⟨policy, mode₂⟩ : Strategy).step u).outcome = .ok (some u') ∧ Alike t' u' := by
  obtain ⟨path, hlocate, hcontracts⟩ := Strategy.outcome_step_eq_some_iff.1 hstep
  rw [h.locate_eq policy mode₁ mode₂] at hlocate
  have hpath : u.HasRedexAt path := Policy.hasRedexAt_of_locate hlocate
  obtain ⟨u', hcontracts', _⟩ := hpath.exists_contractsAt h.right mode₂
  exact ⟨u', Strategy.outcome_step_eq_some_iff.2 ⟨path, hlocate, hcontracts'⟩,
    h.contractsAt hcontracts hcontracts'⟩

/-! ### Whole runs -/

theorem exists_reaches (h : Alike t u) {k : Nat} {s : Term}
    (hs : (⟨policy, mode₁⟩ : Strategy).Reaches k t s) :
    ∃ v, (⟨policy, mode₂⟩ : Strategy).Reaches k u v ∧ Alike s v := by
  induction hs generalizing u with
  | refl t => exact ⟨u, .refl u, h⟩
  | head first _ ih =>
    obtain ⟨u', hu, hnext⟩ := h.exists_step policy first
    obtain ⟨v, hv, halike⟩ := ih hnext
    exact ⟨v, .head hu hv, halike⟩

theorem length_le_of_begins (h : Alike t u) {count : Nat} {ts us : List Term}
    (hts : (⟨policy, mode₁⟩ : Strategy).Begins t count ts)
    (hus : (⟨policy, mode₂⟩ : Strategy).Begins u count us) : ts.length ≤ us.length := by
  rw [← List.getElem?_eq_none_iff, Option.eq_none_iff_forall_ne_some]
  intro s hs
  obtain ⟨hi, hreaches⟩ := (hts us.length s).1 hs
  obtain ⟨v, hv, _⟩ := h.exists_reaches policy hreaches
  have hbeyond := (hus us.length v).2 ⟨hi, hv⟩
  rw [List.getElem?_eq_none (Nat.le_refl _)] at hbeyond
  cases hbeyond

theorem forall₂_of_begins (h : Alike t u) {count : Nat} {ts us : List Term}
    (hts : (⟨policy, mode₁⟩ : Strategy).Begins t count ts)
    (hus : (⟨policy, mode₂⟩ : Strategy).Begins u count us) : List.Forall₂ AlphaEq ts us := by
  rw [List.forall₂_iff_get]
  refine ⟨Nat.le_antisymm (h.length_le_of_begins policy hts hus)
    (h.symm.length_le_of_begins policy hus hts), ?_⟩
  intro i hi hi'
  obtain ⟨v, hv, halike⟩ := h.exists_reaches policy (hts.reaches hi)
  rw [List.get_eq_getElem, List.get_eq_getElem, (hus.reaches hi').unique hv]
  exact halike.alphaEq

theorem evaluateWithin (h : Alike t u) (mode₁ mode₂ : Shadowing) (budget left steps : Nat) :
    (∃ r s, ((⟨policy, mode₁⟩ : Strategy).evaluateWithin budget left steps t).outcome = .ok r ∧
      ((⟨policy, mode₂⟩ : Strategy).evaluateWithin budget left steps u).outcome = .ok s ∧
      r.AlphaEq s) ∨
    ∃ r s, ((⟨policy, mode₁⟩ : Strategy).evaluateWithin budget left steps t).outcome =
        .error (.stepLimit policy.name budget r) ∧
      ((⟨policy, mode₂⟩ : Strategy).evaluateWithin budget left steps u).outcome =
        .error (.stepLimit policy.name budget s) ∧ r.AlphaEq s := by
  rcases (⟨policy, mode₁⟩ : Strategy).run_cases left t with
    ⟨k, hk, r, hr, hhalts⟩ | ⟨k, _, r, fault, hr, hfault⟩ | ⟨r, r', hr, hstep⟩
  · obtain ⟨s, hs, halike⟩ := h.exists_reaches policy hr
    exact .inl ⟨r, s, hr.evaluateWithin_of_halts hhalts hk budget steps,
      hs.evaluateWithin_of_halts (halike.halts policy hhalts) hk budget steps, halike.alphaEq⟩
  · obtain ⟨next, hnext⟩ := Strategy.exists_step ⟨policy, mode₁⟩ (hr.wellFormed h.left)
    cases hfault.symm.trans hnext
  · obtain ⟨s, hs, halike⟩ := h.exists_reaches policy hr
    obtain ⟨s', hstep', _⟩ := halike.exists_step policy hstep
    exact .inr ⟨r, s, hr.evaluateWithin_of_step hstep budget steps,
      hs.evaluateWithin_of_step hstep' budget steps, halike.alphaEq⟩

end Alike

/-- Runs of one policy from alpha-equivalent terms stay alike term by term and end or run out of a
budget together, whatever the treatments of shadowing. -/
theorem Policy.runs_alphaEq (policy : Policy) (mode₁ mode₂ : Shadowing) {t u : Term}
    (ht : t.WellFormed) (hu : u.WellFormed) (halpha : t.AlphaEq u) :
    (⟨policy, mode₁⟩ : Strategy).locate t = (⟨policy, mode₂⟩ : Strategy).locate u ∧
    (∀ count, ∃ ts us,
      (⟨policy, mode₁⟩ : Strategy).Begins t count ts ∧
      (Trace.take ⟨policy, mode₁⟩ count (.start t)).outcome = .ok ts ∧
      (⟨policy, mode₂⟩ : Strategy).Begins u count us ∧
      (Trace.take ⟨policy, mode₂⟩ count (.start u)).outcome = .ok us ∧
      List.Forall₂ AlphaEq ts us) ∧
    ∀ budget : Int, 0 ≤ budget →
      (∃ r s, ((⟨policy, mode₁⟩ : Strategy).evaluateBounded budget t).outcome = .ok r ∧
        ((⟨policy, mode₂⟩ : Strategy).evaluateBounded budget u).outcome = .ok s ∧
        r.AlphaEq s) ∨
      ∃ r s, ((⟨policy, mode₁⟩ : Strategy).evaluateBounded budget t).outcome =
          .error (.stepLimit policy.name budget r) ∧
        ((⟨policy, mode₂⟩ : Strategy).evaluateBounded budget u).outcome =
          .error (.stepLimit policy.name budget s) ∧ r.AlphaEq s := by
  have h : Alike t u := ⟨ht, hu, halpha⟩
  refine ⟨h.locate_eq policy mode₁ mode₂, ?_, ?_⟩
  · intro count
    obtain ⟨ts, hleft, hts⟩ := Trace.exists_take_of_wellFormed ⟨policy, mode₁⟩ ht count
    obtain ⟨us, hright, hus⟩ := Trace.exists_take_of_wellFormed ⟨policy, mode₂⟩ hu count
    exact ⟨ts, us, hleft, hts, hright, hus, h.forall₂_of_begins policy hleft hright⟩
  · intro budget hbudget
    obtain ⟨n, rfl⟩ := Int.eq_ofNat_of_zero_le hbudget
    exact h.evaluateWithin policy mode₁ mode₂ n n 0

/-- One run keeps a binder that shadows the substituted name where the other renames it. -/
theorem Policy.runs_alphaEq_shadowed :
    (Trace.take ⟨.lazy, .stop⟩ 3
        (.start (.app (.lam "x" (.lam "x" (.var "x"))) (.var "z")))).outcome =
      .ok [.app (.lam "x" (.lam "x" (.var "x"))) (.var "z"), .lam "x" (.var "x")] ∧
    (Trace.take ⟨.lazy, .rename⟩ 3
        (.start (.app (.lam "y" (.lam "y" (.var "y"))) (.var "z")))).outcome =
      .ok [.app (.lam "y" (.lam "y" (.var "y"))) (.var "z"), .lam "y'" (.var "y'")] ∧
    (Term.lam "x" (.var "x")).AlphaEq (.lam "y'" (.var "y'")) := by
  have halpha : (Term.app (.lam "x" (.lam "x" (.var "x"))) (.var "z")).AlphaEq
      (.app (.lam "y" (.lam "y" (.var "y"))) (.var "z")) := by
    simp [AlphaEq, AlphaUnder, SameReference]
  obtain ⟨ts, us, _, hts, _, hus, hall⟩ :=
    (Policy.runs_alphaEq .lazy .stop .rename (by decide) (by decide) halpha).2.1 3
  have hkept : (Trace.take ⟨.lazy, .stop⟩ 3
        (.start (.app (.lam "x" (.lam "x" (.var "x"))) (.var "z")))).outcome =
      .ok [.app (.lam "x" (.lam "x" (.var "x"))) (.var "z"), .lam "x" (.var "x")] := by
    decide +kernel
  have hrenamed : (Trace.take ⟨.lazy, .rename⟩ 3
        (.start (.app (.lam "y" (.lam "y" (.var "y"))) (.var "z")))).outcome =
      .ok [.app (.lam "y" (.lam "y" (.var "y"))) (.var "z"), .lam "y'" (.var "y'")] := by
    decide +kernel
  cases hts.symm.trans hkept
  cases hus.symm.trans hrenamed
  cases hall with
  | cons _ hrest =>
    cases hrest with
    | cons hsecond _ => exact ⟨hts, hus, hsecond⟩

end UntypedLambda

import UntypedLambda.Proofs.Strategy.Locate
import UntypedLambda.Strategy.Run
/-!
# Steps

A strategy takes a step exactly where its policy has located a redex that can be contracted, and the
step is that contraction. On a well-formed term nothing else can happen: either there is no redex for
the policy, or the step succeeds and its result is well formed again.
-/

namespace UntypedLambda.Strategy

open Term

variable {S S' : Strategy} {t t' s : Term} {path : Path} {k : Nat}

theorem outcome_step_eq_some_iff :
    (S.step t).outcome = .ok (some t') ↔
      ∃ path, S.locate t = .ok (some path) ∧ ContractsAt S.shadowing path t t' := by
  rw [outcome_step, bind_eq_ok_iff]
  constructor
  · rintro ⟨found, hlocate, h⟩
    cases found with
    | none => cases h
    | some path =>
      obtain ⟨redex, hsubterm, h⟩ := bind_eq_ok_iff.1 h
      obtain ⟨contractum, hcontract, h⟩ := bind_eq_ok_iff.1 h
      obtain ⟨reduct, hreplace, h⟩ := bind_eq_ok_iff.1 h
      cases h
      obtain ⟨redex', hsubterm', hredex⟩ := Policy.hasRedexAt_of_locate hlocate
      cases hsubterm.symm.trans hsubterm'
      exact ⟨path, hlocate,
        contractsAt_iff.2 ⟨redex, contractum, hsubterm, hredex, hcontract, hreplace⟩⟩
  · rintro ⟨path, hlocate, h⟩
    obtain ⟨redex, contractum, hsubterm, _, hcontract, hreplace⟩ := contractsAt_iff.1 h
    refine ⟨some path, hlocate, bind_eq_ok_iff.2 ⟨redex, hsubterm, ?_⟩⟩
    refine bind_eq_ok_iff.2 ⟨contractum, hcontract, ?_⟩
    exact bind_eq_ok_iff.2 ⟨t', hreplace, rfl⟩

theorem outcome_step_eq (hlocate : S.locate t = S'.locate t) (hmode : S.shadowing = S'.shadowing) :
    (S.step t).outcome = (S'.step t).outcome := by
  rw [outcome_step, outcome_step, hlocate, hmode]

theorem contracts_of_step (h : (S.step t).outcome = .ok (some t')) : t.Contracts t' := by
  obtain ⟨path, _, hcontracts⟩ := outcome_step_eq_some_iff.1 h
  exact contracts_iff.2 ⟨path, S.shadowing, hcontracts⟩

/-- What a step can do on a well-formed term. -/
theorem step_cases (S : Strategy) (ht : t.WellFormed) :
    (S.locate t = .ok none ∧ (S.step t).outcome = .ok none) ∨
      ∃ path t', S.locate t = .ok (some path) ∧ ContractsAt S.shadowing path t t' ∧
        (S.step t).outcome = .ok (some t') := by
  obtain ⟨found, hlocate⟩ := S.policy.exists_locate (.inr ht.proper)
  cases found with
  | none => exact .inl ⟨hlocate, halts_iff_locate_eq_none.2 hlocate⟩
  | some path =>
    obtain ⟨t', h, _⟩ := (Policy.hasRedexAt_of_locate hlocate).exists_contractsAt ht S.shadowing
    exact .inr ⟨path, t', hlocate, h, outcome_step_eq_some_iff.2 ⟨path, hlocate, h⟩⟩

theorem exists_step (S : Strategy) (ht : t.WellFormed) : ∃ next, (S.step t).outcome = .ok next := by
  rcases S.step_cases ht with ⟨_, hhalts⟩ | ⟨_, t', _, _, hstep⟩
  · exact ⟨none, hhalts⟩
  · exact ⟨some t', hstep⟩

theorem isNormal_of_halts (h : S.Halts t) (hpolicy : S.policy = .normal ∨ S.policy = .full) :
    t.IsNormal := by
  have hnone := halts_iff_locate_eq_none.1 h
  rcases hpolicy with hpolicy | hpolicy
  · rw [locate, hpolicy] at hnone
    exact Policy.normal_locate_eq_none_iff.1 hnone
  · rw [locate, hpolicy] at hnone
    exact Policy.full_locate_eq_none_iff.1 hnone

/-! ### Along a run -/

theorem reaches_zero_iff : S.Reaches 0 t s ↔ s = t := by
  constructor
  · intro h
    cases h
    rfl
  · rintro rfl
    exact .refl _

theorem reaches_succ_iff :
    S.Reaches (k + 1) t s ↔ ∃ u, (S.step t).outcome = .ok (some u) ∧ S.Reaches k u s := by
  constructor
  · intro h
    cases h with
    | head first rest => exact ⟨_, first, rest⟩
  · rintro ⟨u, first, rest⟩
    exact .head first rest

/-- A run is determined, so what is reached later is reached from what was reached before. -/
theorem Reaches.rest {i j : Nat} {u v : Term} (hu : S.Reaches i t u) (hv : S.Reaches j t v)
    (hle : i ≤ j) : S.Reaches (j - i) u v := by
  induction hu generalizing j with
  | refl => exact hv
  | head first _ ih =>
    cases hv with
    | refl => cases hle
    | head first' rest' =>
      cases first.symm.trans first'
      rw [Nat.add_sub_add_right]
      exact ih rest' (Nat.le_of_succ_le_succ hle)

theorem Reaches.unique {u v : Term} (hu : S.Reaches k t u) (hv : S.Reaches k t v) : u = v := by
  have hrest := hu.rest hv (Nat.le_refl k)
  rw [Nat.sub_self, reaches_zero_iff] at hrest
  exact hrest.symm

theorem Reaches.reduces (h : S.Reaches k t s) : t.Reduces s := by
  induction h with
  | refl t => exact .refl t
  | head first _ ih => exact .head (contracts_of_step first) ih

theorem Reaches.wellFormed (h : S.Reaches k t s) (ht : t.WellFormed) : s.WellFormed := by
  induction h with
  | refl t => exact ht
  | head first _ ih =>
    obtain ⟨path, _, hcontracts⟩ := outcome_step_eq_some_iff.1 first
    exact ih (hcontracts.wellFormed ht)

theorem Reaches.proper (h : S.Reaches k t s) (ht : t.Proper) : s.Proper := by
  induction h with
  | refl t => exact ht
  | head first _ ih =>
    obtain ⟨path, _, hcontracts⟩ := outcome_step_eq_some_iff.1 first
    exact ih fun leaf hleaf => ht leaf (hcontracts.mem_foreignLeaves hleaf)

theorem Reaches.mem_free (h : S.Reaches k t s) (ht : t.WellFormed) {n : Name} (hn : n ∈ s.free) :
    n ∈ t.free := by
  induction h with
  | refl t => exact hn
  | head first _ ih =>
    obtain ⟨path, _, hcontracts⟩ := outcome_step_eq_some_iff.1 first
    exact hcontracts.mem_free ht (ih (hcontracts.wellFormed ht) hn)

theorem Reaches.closed (h : S.Reaches k t s) (ht : t.WellFormed) (hclosed : t.Closed) :
    s.Closed := by
  rw [Closed, List.eq_nil_iff_forall_not_mem]
  intro n hn
  have hmem := h.mem_free ht hn
  rw [hclosed] at hmem
  exact List.not_mem_nil hmem

end UntypedLambda.Strategy

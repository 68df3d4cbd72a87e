import Mathlib.Data.Set.Card
import UntypedLambda.Proofs.Substitution.Grafting
/-!
# The nodes of a result

A result of substitution has three kinds of position: those where the target was free, at which the
replacement stands as it was given; the other positions of the term, at which a node of the same sort
stands; and the positions inside the copies of the replacement. There are no others. So the size of a
result is known from the number of free occurrences of the target alone.

All this is read off the relation between term and result node by node. Pairs of binders that have the
target stand for a place where it is not free.
-/

namespace UntypedLambda

namespace Term

variable {t : Term} {path : Path} {n : Name}

/-! ### Counting free occurrences -/

def occurrences (n : Name) : Term → List Path
  | var name => if name = n then [[]] else []
  | lam binder body => if binder = n then [] else (body.occurrences n).map (.body :: ·)
  | app func arg =>
    (func.occurrences n).map (.func :: ·) ++ (arg.occurrences n).map (.arg :: ·)
  | foreign _ => []

theorem mem_occurrences_iff : path ∈ t.occurrences n ↔ t.FreeAt path n := by
  constructor
  · intro h
    induction t generalizing path with
    | var name =>
      rw [occurrences] at h
      split at h
      · rename_i hname
        rw [List.mem_singleton.1 h, hname]
        exact .var n
      · cases h
    | lam binder body ih =>
      rw [occurrences] at h
      split at h
      · cases h
      · rename_i hbinder
        obtain ⟨rest, hrest, rfl⟩ := List.mem_map.1 h
        exact .body (ih hrest) (Ne.symm hbinder)
    | app func arg ihf iha =>
      rcases List.mem_append.1 h with h | h
      · obtain ⟨rest, hrest, rfl⟩ := List.mem_map.1 h
        exact .func (ihf hrest) arg
      · obtain ⟨rest, hrest, rfl⟩ := List.mem_map.1 h
        exact .arg (iha hrest) func
    | foreign leaf => cases h
  · intro h
    induction h with
    | var n => simp [occurrences]
    | body _ hne ih =>
      rw [occurrences, if_neg (Ne.symm hne)]
      exact List.mem_map_of_mem ih
    | func _ _ ih => exact List.mem_append_left _ (List.mem_map_of_mem ih)
    | arg _ _ ih => exact List.mem_append_right _ (List.mem_map_of_mem ih)

theorem nodup_occurrences (t : Term) (n : Name) : (t.occurrences n).Nodup := by
  have hcons : ∀ edge : Edge, Function.Injective (edge :: · : Path → Path) := fun edge =>
    List.cons_injective
  induction t with
  | var name =>
    rw [occurrences]
    split
    · exact List.nodup_singleton _
    · exact .nil
  | lam binder body ih =>
    rw [occurrences]
    split
    · exact .nil
    · exact ih.map (hcons .body)
  | app func arg ihf iha =>
    refine (ihf.map (hcons .func)).append (iha.map (hcons .arg)) ?_
    -- The first edge tells the two sides apart.
    intro path hfunc harg
    obtain ⟨_, _, rfl⟩ := List.mem_map.1 hfunc
    obtain ⟨_, _, heq⟩ := List.mem_map.1 harg
    cases heq
  | foreign leaf => exact .nil

theorem ncard_freeAt (t : Term) (n : Name) :
    {path | t.FreeAt path n}.ncard = (t.occurrences n).length := by
  have hset : {path | t.FreeAt path n} = ↑(t.occurrences n).toFinset := by
    ext path
    rw [Set.mem_ofPred_eq, Finset.mem_coe, List.mem_toFinset, mem_occurrences_iff]
  rw [hset, Set.ncard_coe_finset, List.toFinset_card_of_nodup (nodup_occurrences t n)]

end Term

namespace Substitution

open Term

variable {σ : Substitution} {t r part : Term} {pairs : List (Name × Name)} {path : Path}

/-! ### The three kinds of position -/

theorem Grafted.subterm_eq_of_freeAt (h : Grafted σ pairs t r)
    (hpairs : σ.target ∉ pairs.map Prod.fst) (hfree : t.FreeAt path σ.target) :
    r.subterm path = .ok σ.replacement := by
  induction h generalizing path with
  | target =>
    cases hfree
    rfl
  | var hkept =>
    cases hfree
    exact absurd (hkept rfl) hpairs
  | lam _ ih =>
    cases hfree with
    | body hfree hne =>
      apply ih _ hfree
      rw [List.map_cons, List.mem_cons, not_or]
      exact ⟨hne, hpairs⟩
  | app _ _ ihf iha =>
    cases hfree with
    | func hfree => exact ihf hpairs hfree
    | arg hfree => exact iha hpairs hfree
  | foreign => cases hfree

theorem Grafted.exists_subterm (h : Grafted σ pairs t r) (hpart : t.subterm path = .ok part)
    (hkept : t.FreeAt path σ.target → σ.target ∈ pairs.map Prod.fst) :
    ∃ part', r.subterm path = .ok part' ∧ part'.kind = part.kind := by
  induction h generalizing path with
  | target hfree =>
    obtain ⟨rfl, _⟩ := subterm_var_eq_ok_iff.1 hpart
    exact absurd (hkept (.var σ.target)) hfree
  | var =>
    obtain ⟨rfl, rfl⟩ := subterm_var_eq_ok_iff.1 hpart
    exact ⟨_, rfl, rfl⟩
  | @lam pairs x y body body' _ ih =>
    rcases subterm_lam_eq_ok_iff.1 hpart with ⟨rfl, rfl⟩ | ⟨rest, rfl, hrest⟩
    · exact ⟨_, rfl, rfl⟩
    · refine ih hrest fun hfree => ?_
      by_cases hx : σ.target = x
      · exact hx ▸ List.mem_cons_self
      · exact List.mem_cons_of_mem x (hkept (.body hfree hx))
  | @app pairs func arg func' arg' _ _ ihf iha =>
    rcases subterm_app_eq_ok_iff.1 hpart with ⟨rfl, rfl⟩ | ⟨rest, rfl, hrest⟩ | ⟨rest, rfl, hrest⟩
    · exact ⟨_, rfl, rfl⟩
    · exact ihf hrest fun hfree => hkept (.func hfree arg)
    · exact iha hrest fun hfree => hkept (.arg hfree func)
  | foreign leaf =>
    obtain ⟨rfl, rfl⟩ := subterm_foreign_eq_ok_iff.1 hpart
    exact ⟨_, rfl, rfl⟩

theorem Grafted.subterm_cases (h : Grafted σ pairs t r) (hpart : r.subterm path = .ok part) :
    (∃ before, t.subterm path = .ok before) ∨
      ∃ front rest, path = front ++ rest ∧ t.FreeAt front σ.target ∧
        σ.target ∉ pairs.map Prod.fst ∧ σ.replacement.subterm rest = .ok part := by
  induction h generalizing path with
  | target hfree => exact .inr ⟨[], path, rfl, .var σ.target, hfree, hpart⟩
  | var =>
    obtain ⟨rfl, rfl⟩ := subterm_var_eq_ok_iff.1 hpart
    exact .inl ⟨_, rfl⟩
  | lam _ ih =>
    rcases subterm_lam_eq_ok_iff.1 hpart with ⟨rfl, rfl⟩ | ⟨rest, rfl, hrest⟩
    · exact .inl ⟨_, rfl⟩
    · rcases ih hrest with hbefore | ⟨front, inside, rfl, hfree, hnot, hinside⟩
      · exact .inl hbefore
      · rw [List.map_cons, List.mem_cons, not_or] at hnot
        exact .inr ⟨.body :: front, inside, rfl, .body hfree hnot.1, hnot.2, hinside⟩
  | @app pairs func arg func' arg' _ _ ihf iha =>
    rcases subterm_app_eq_ok_iff.1 hpart with ⟨rfl, rfl⟩ | ⟨rest, rfl, hrest⟩ | ⟨rest, rfl, hrest⟩
    · exact .inl ⟨_, rfl⟩
    · rcases ihf hrest with hbefore | ⟨front, inside, rfl, hfree, hnot, hinside⟩
      · exact .inl hbefore
      · exact .inr ⟨.func :: front, inside, rfl, .func hfree arg, hnot, hinside⟩
    · rcases iha hrest with hbefore | ⟨front, inside, rfl, hfree, hnot, hinside⟩
      · exact .inl hbefore
      · exact .inr ⟨.arg :: front, inside, rfl, .arg hfree func, hnot, hinside⟩
  | foreign leaf =>
    obtain ⟨rfl, rfl⟩ := subterm_foreign_eq_ok_iff.1 hpart
    exact .inl ⟨_, rfl⟩

/-! ### The size of a result -/

theorem Grafted.size_eq_of_mem (h : Grafted σ pairs t r) (hmem : σ.target ∈ pairs.map Prod.fst) :
    r.size = t.size := by
  induction h with
  | target hfree => exact absurd hmem hfree
  | var => rfl
  | lam _ ih => rw [size, size, ih (List.mem_cons_of_mem _ hmem)]
  | app _ _ ihf iha => rw [size, size, ihf hmem, iha hmem]
  | foreign => rfl

theorem Grafted.size_eq (h : Grafted σ pairs t r) (hpairs : σ.target ∉ pairs.map Prod.fst) :
    r.size = t.size + (t.occurrences σ.target).length * (σ.replacement.size - 1) := by
  induction h with
  | target =>
    have hpos := σ.replacement.size_pos
    simp only [occurrences, if_pos, List.length_singleton, size]
    omega
  | @var _ n _ hkept =>
    have hne : n ≠ σ.target := fun heq => hpairs (heq ▸ hkept heq)
    simp [occurrences, hne, size]
  | @lam pairs x y body body' hbody ih =>
    rw [occurrences]
    split
    · -- Under a binder of the target nothing is replaced.
      rename_i hx
      have hsize := hbody.size_eq_of_mem (hx ▸ List.mem_cons_self)
      simp [size, hsize]
    · rename_i hx
      have hsize := ih (by simpa using ⟨Ne.symm hx, by simpa using hpairs⟩)
      rw [size, size, hsize, List.length_map]
      omega
  | app _ _ ihf iha =>
    rw [size, size, ihf hpairs, iha hpairs, occurrences, List.length_append, List.length_map,
      List.length_map, Nat.add_mul]
    omega
  | foreign => simp [occurrences, size]

end Substitution

namespace Term

/-- A substitution puts copies of the replacement exactly where the target was free and changes no
other node but in its name. -/
theorem subst_grafts_replacement {t replacement : Term} (ht : t.WellFormed)
    (hreplacement : replacement.WellFormed) (target : Name) (shadowing : Shadowing) :
    ∃ r, (t.subst target replacement shadowing).outcome = .ok r ∧
      (∀ path, t.FreeAt path target → r.subterm path = .ok replacement) ∧
      (∀ path part, t.subterm path = .ok part → ¬ t.FreeAt path target →
        ∃ part', r.subterm path = .ok part' ∧ part'.kind = part.kind) ∧
      (∀ path part, r.subterm path = .ok part → (∃ before, t.subterm path = .ok before) ∨
        ∃ front rest, path = front ++ rest ∧ t.FreeAt front target ∧
          replacement.subterm rest = .ok part) ∧
      r.size = t.size + {path | t.FreeAt path target}.ncard * (replacement.size - 1) := by
  obtain ⟨σ, r, hr, _, rfl, rfl, hyields⟩ :=
    exists_subst_yields ht hreplacement target shadowing
  have hgrafted := hyields.grafted
  refine ⟨r, hr, ?_, ?_, ?_, ?_⟩
  · intro path hfree
    exact hgrafted.subterm_eq_of_freeAt List.not_mem_nil hfree
  · intro path part hpart hnot
    exact hgrafted.exists_subterm hpart fun hfree => absurd hfree hnot
  · intro path part hpart
    rcases hgrafted.subterm_cases hpart with hbefore | ⟨front, rest, heq, hfree, _, hinside⟩
    · exact .inl hbefore
    · exact .inr ⟨front, rest, heq, hfree, hinside⟩
  · rw [ncard_freeAt]
    exact hgrafted.size_eq List.not_mem_nil

/-- Two occurrences are free below a binder that has to be renamed, and a third is not free. -/
theorem subst_grafts_replacement_twice :
    ∃ r, ((lam "y" (app (app (var "x") (var "x")) (lam "x" (app (var "x") (var "y"))))).subst "x"
        (app (var "y") (var "z")) .rename).outcome = .ok r ∧
      r.subterm [.body, .func, .func] = .ok (app (var "y") (var "z")) ∧
      r.subterm [.body, .func, .arg] = .ok (app (var "y") (var "z")) ∧
      (∃ n, r.subterm [.body, .arg, .body, .func] = .ok (var n)) ∧ r.size = 13 := by
  have ht : (lam "y" (app (app (var "x") (var "x"))
      (lam "x" (app (var "x") (var "y"))))).WellFormed := by decide
  have hreplacement : (app (var "y") (var "z")).WellFormed := by decide
  obtain ⟨r, hr, hfree, hother, _, hsize⟩ := subst_grafts_replacement ht hreplacement "x" .rename
  have hbound : ¬ (lam "y" (app (app (var "x") (var "x"))
      (lam "x" (app (var "x") (var "y"))))).FreeAt [.body, .arg, .body, .func] "x" := by
    rw [← mem_occurrences_iff]
    decide
  obtain ⟨part, hpart, hkind⟩ := hother [.body, .arg, .body, .func] (var "x") rfl hbound
  rw [ncard_freeAt] at hsize
  refine ⟨r, hr, hfree _ ?_, hfree _ ?_, ?_, hsize⟩
  · exact mem_occurrences_iff.1 (by decide)
  · exact mem_occurrences_iff.1 (by decide)
  · cases part with
    | var n => exact ⟨n, hpart⟩
    | foreign leaf => cases leaf <;> cases hkind
    | _ => cases hkind

end Term

end UntypedLambda

import Mathlib.Data.List.Forall2
import UntypedLambda.Proofs.Fresh
import UntypedLambda.Proofs.Hygiene
import UntypedLambda.Proofs.Substitution.Encoding
/-!
# What retiring a name does to a term

A name is retired in one walk with one count of marks. The walk mints a new name at each binder of the
retired one, on its way through the term in preorder, and takes the count on from there; the name that is
current below a binder is dropped again when the walk leaves it. So two things are said apart: the
counts, which depend on the order of the binders alone, and the variables, which depend on the binders
above them alone.

If all names of the term are to be avoided, a term from which a name was retired is what a substitution
of the current name gives, up to the choice of bound names. The current name may be one of those to
avoid, and may even be minted for a binder: below that binder it is not needed.
-/

namespace UntypedLambda.Term

variable {name current : Name} {avoid : List Name} {t t' : Term} {count count' : Int}
  {path owner : Path}

/-! ### The counts -/

/-- Counts of marks that are minted one after another beyond a given one, up to the last; this is the
given one if nothing is minted. -/
def Counts (name : Name) (avoid : List Name) (count : Int) (counts : List Int) (last : Int) : Prop :=
  (count :: counts).IsChain
      (fun previous next => IsLeast {c | previous < c ∧ marked name c ∉ avoid} next) ∧
    counts.getLastD count = last

theorem counts_nil (name : Name) (avoid : List Name) (count : Int) :
    Counts name avoid count [] count :=
  ⟨.singleton count, rfl⟩

theorem Counts.cons {counts : List Int} {last : Int}
    (h : Counts name avoid (mint name count avoid).2 counts last) :
    Counts name avoid count ((mint name count avoid).2 :: counts) last := by
  refine ⟨List.isChain_cons_cons.2 ⟨mint_isLeast name count avoid, h.1⟩, ?_⟩
  rw [List.getLastD_cons]
  exact h.2

theorem Counts.append {counts counts' : List Int} {middle last : Int}
    (h : Counts name avoid count counts middle) (h' : Counts name avoid middle counts' last) :
    Counts name avoid count (counts ++ counts') last := by
  induction counts generalizing count with
  | nil =>
    obtain rfl : count = middle := h.2
    exact h'
  | cons next counts ih =>
    obtain ⟨hchain, hlast⟩ := h
    obtain ⟨hnext, hrest⟩ := List.isChain_cons_cons.1 hchain
    rw [List.getLastD_cons] at hlast
    obtain ⟨hchain', hlast'⟩ := ih ⟨hrest, hlast⟩
    refine ⟨List.isChain_cons_cons.2 ⟨hnext, hchain'⟩, ?_⟩
    rw [List.cons_append, List.getLastD_cons]
    exact hlast'

/-- The binders of the retired name, in preorder, have got the counts in order. -/
def Numbered (name : Name) (avoid : List Name) (t : Term) (count : Int) (t' : Term) (count' : Int) :
    Prop :=
  ∃ paths counts, Path.Lists paths (fun path => t.binderAt path = some name) ∧
    Counts name avoid count counts count' ∧
    List.Forall₂ (fun path c => t'.binderAt path = some (marked name c)) paths counts

theorem Retires.numbered (h : Retires name avoid t current count t' count') :
    Numbered name avoid t count t' count' := by
  induction h with
  | current => exact ⟨[], [], Path.lists_nil (by simp), counts_nil _ _ _, .nil⟩
  | other => exact ⟨[], [], Path.lists_nil (by simp), counts_nil _ _ _, .nil⟩
  | @minted body body' current count count' _ ih =>
    obtain ⟨paths, counts, hlists, hcounts, hmarked⟩ := ih
    have hbelow := hlists.behind .body fun path => Iff.rfl
    refine ⟨[] :: paths.map (.body :: ·), (mint name count avoid).2 :: counts,
      hbelow.root (by simp) fun path => ?_, hcounts.cons, .cons ?_ ?_⟩
    · rw [binderAt_lam_eq_some_iff]
      simp
    · rw [binderAt_lam_nil, mint_fst]
    · exact List.forall₂_map_left_iff.2 hmarked
  | @passed n current body body' count count' hne _ ih =>
    obtain ⟨paths, counts, hlists, hcounts, hmarked⟩ := ih
    refine ⟨paths.map (.body :: ·), counts, hlists.behind .body fun path => ?_, hcounts, ?_⟩
    · rw [binderAt_lam_eq_some_iff]
      simp [Ne.symm hne]
    · exact List.forall₂_map_left_iff.2 hmarked
  | app _ _ ihf iha =>
    -- The argument takes the counts up where the function has left off.
    obtain ⟨paths, counts, hlists, hcounts, hmarked⟩ := ihf
    obtain ⟨paths', counts', hlists', hcounts', hmarked'⟩ := iha
    exact ⟨_, counts ++ counts', hlists.sides hlists' fun path => binderAt_app_eq_some_iff,
      hcounts.append hcounts',
      List.rel_append (List.forall₂_map_left_iff.2 hmarked) (List.forall₂_map_left_iff.2 hmarked')⟩

/-! ### The variables -/

theorem Retires.subterm_of_freeAt (h : Retires name avoid t current count t' count')
    (hfree : t.FreeAt path name) : t'.subterm path = .ok (var current) := by
  induction h generalizing path with
  | current =>
    cases hfree
    rfl
  | other hne =>
    cases hfree
    exact absurd rfl hne
  | minted =>
    cases hfree with
    | body _ hne => exact absurd rfl hne
  | passed _ _ ih =>
    cases hfree with
    | body hfree _ => exact ih hfree
  | app _ _ ihf iha =>
    cases hfree with
    | func hfree _ => exact ihf hfree
    | arg hfree _ => exact iha hfree

/-- A variable that belongs to a binder of the retired name has the new name of this binder. -/
theorem Retires.exists_binderAt_of_boundAt (h : Retires name avoid t current count t' count')
    (hbound : t.BoundAt path owner) (howner : t.binderAt owner = some name) :
    ∃ new, t'.binderAt owner = some new ∧ t'.subterm path = .ok (var new) := by
  induction h generalizing path owner with
  | current => cases hbound
  | other => cases hbound
  | minted _ hbody ih =>
    cases hbound with
    | here hfree => exact ⟨_, rfl, hbody.subterm_of_freeAt hfree⟩
    | body hbound _ => exact ih hbound howner
  | passed hne _ ih =>
    cases hbound with
    | here _ => exact absurd (Option.some.inj howner) hne
    | body hbound _ => exact ih hbound howner
  | app _ _ ihf iha =>
    cases hbound with
    | func hbound _ => exact ihf hbound howner
    | arg hbound _ => exact iha hbound howner

theorem Retires.shape_eq (h : Retires name avoid t current count t' count') : t'.shape = t.shape := by
  induction h with
  | current => rfl
  | other => rfl
  | minted _ _ ih => rw [shape, shape, ih]
  | passed _ _ ih => rw [shape, shape, ih]
  | app _ _ ihf iha => rw [shape, shape, ihf, iha]

/-! ### The same as a substitution -/

/-- A substitution of a name that occurs nowhere else gives the nameless form that the term had with
this name in place of the target. -/
theorem exists_subst_var (ht : t.WellFormed) (hcurrent : current ≠ "")
    (hother : ∀ n ∈ t.free, n ≠ name → n ≠ current) (shadowing : Shadowing) :
    ∃ s, (t.subst name (var current) shadowing).outcome = .ok s ∧
      ∀ {scope : List Name} {T : Nameless}, t.encodeIn (name :: scope) = .ok T →
        s.encodeIn (current :: scope) = .ok T := by
  have hreplacement : (var current).WellFormed := hcurrent
  obtain ⟨s, hs, _, _, hform⟩ := exists_subst ht hreplacement name shadowing
  refine ⟨s, hs, ?_⟩
  intro scope T hT
  have hhidden : ∀ n ∈ [current], n ∈ t.free → n ∈ [name] := by
    intro n hn hfree
    obtain rfl := List.mem_singleton.1 hn
    by_contra hne
    exact hother n hfree (fun heq => hne (List.mem_singleton.2 heq)) rfl
  have hshifted : t.encodeIn (name :: current :: scope) = .ok (T.shift 1 1) :=
    encodeIn_insert [name] [current] scope hT hhidden
  have hvar : (var current).encodeIn (current :: scope) = .ok (.var 0) :=
    encodeIn_var_eq_ok_iff.2 ⟨0, by simp [List.idxOf?_cons], rfl⟩
  rw [hform hshifted hvar, Nameless.subst_var_shift]

theorem Retires.alphaEq_subst (h : Retires name avoid t current count t' count') (ht : t.WellFormed)
    (hcurrent : current ≠ "") (hlabels : ∀ n ∈ t.labels, n ∈ avoid)
    (hother : ∀ n ∈ t.labels, n ≠ name → n ≠ current) (shadowing : Shadowing) :
    ∃ s, (t.subst name (var current) shadowing).outcome = .ok s ∧ t'.AlphaEq s := by
  obtain ⟨s, hs, hform⟩ := exists_subst_var ht hcurrent
    (fun n hn => hother n (mem_labels_iff.2 (.inl hn))) shadowing
  refine ⟨s, hs, ?_⟩
  obtain ⟨T, hT⟩ : ∃ T, t.encodeIn (name :: t.free) = .ok T :=
    ht.exists_encodeIn fun n hn => List.mem_cons_of_mem _ hn
  have hsame : AlphaUnder [(name, current)] t t' :=
    h.alphaUnder hlabels hother (.inl ⟨rfl, rfl⟩) fun n hn hne => .inr ⟨hne, hother n hn hne, rfl⟩
  have hretired : t'.encodeIn (current :: t.free) = .ok T := hsame.encodeIn_eq hT
  exact alphaUnder_of_encodeIn_eq hretired (hform hT)

/-- The binders of a retired name get the least marks that are free, in preorder and each beyond the
one before; variables follow their binders, and nothing else changes. -/
theorem retire_marks_in_preorder (ht : t.WellFormed) (hcurrent : current ≠ "") (name : Name)
    (count : Int) (avoid : List Name) :
    ∃ (t' : Term) (count' : Int) (paths : List Path) (counts : List Int) (names : List Name),
      t.retire name avoid current count = .ok (t', count') ∧ t.allNames = .ok names ∧
      paths.Pairwise Path.Precedes ∧ (∀ path, path ∈ paths ↔ t.binderAt path = some name) ∧
      (count :: counts).IsChain
        (fun previous next => IsLeast {c | previous < c ∧ marked name c ∉ avoid} next) ∧
      List.Forall₂ (fun path c => t'.binderAt path = some (marked name c)) paths counts ∧
      count' = counts.getLastD count ∧
      (∀ path, t.subterm path = .ok (var name) →
        t.FreeAt path name ∨ ∃ owner, t.BoundAt path owner ∧ t.binderAt owner = some name) ∧
      (∀ path, t.FreeAt path name → t'.subterm path = .ok (var current)) ∧
      (∀ path owner, t.BoundAt path owner → t.binderAt owner = some name →
        ∃ new, t'.binderAt owner = some new ∧ t'.subterm path = .ok (var new)) ∧
      (∀ path n, t.binderAt path = some n → n ≠ name → t'.binderAt path = some n) ∧
      (∀ path n, t.subterm path = .ok (var n) → n ≠ name → t'.subterm path = .ok (var n)) ∧
      t'.shape = t.shape ∧
      ((∀ n ∈ names, n ∈ avoid) → current ∉ names.filter (· ≠ name) → ∀ shadowing,
        ∃ s, (t.subst name (var current) shadowing).outcome = .ok s ∧ t'.AlphaEq s) := by
  obtain ⟨t', count', hretire, _⟩ := exists_retire ht hcurrent name avoid count
  obtain ⟨names, hnames, hmem⟩ := allNames_of_plain ht.foreignLeaves_eq_nil
  have hretires := retires_of_retire hretire
  obtain ⟨paths, counts, hlists, hcounts, hmarked⟩ := hretires.numbered
  have hwithin : RetiresWithin name avoid count count' t t' :=
    ⟨current, count, count', Int.le_refl _, Int.le_refl _, hretires⟩
  refine ⟨t', count', paths, counts, names, hretire, hnames, hlists.1, hlists.2, hcounts.1, hmarked,
    hcounts.2.symm, ?_, fun path => hretires.subterm_of_freeAt,
    fun path owner => hretires.exists_binderAt_of_boundAt, fun path n => hwithin.binderAt_eq,
    fun path n => hwithin.subterm_var_eq, hretires.shape_eq, ?_⟩
  · intro path hvar
    refine (freeAt_or_boundAt hvar).imp_right fun ⟨owner, hbound⟩ => ⟨owner, hbound, ?_⟩
    obtain ⟨n, hvar', howner⟩ := hbound.exists_name
    cases hvar.symm.trans hvar'
    exact howner
  · intro havoid hfilter shadowing
    refine hretires.alphaEq_subst ht hcurrent (fun n hn => havoid n ((hmem n).2 hn)) ?_ shadowing
    rintro n hn hne rfl
    exact hfilter (List.mem_filter.2 ⟨(hmem n).2 hn, by simpa using hne⟩)

/-- The walk starts below zero, and after the binder on the left a free variable has the current
name again. -/
theorem retire_marks_in_preorder_siblings :
    ∃ t' s, (app (lam "x" (lam "y" (var "x"))) (app (var "x") (lam "x" (var "x")))).retire "x"
        ["x", "y", "x'"] "z" (-1) = .ok (t', 3) ∧
      t'.binderAt [.func] = some "x''" ∧ t'.subterm [.func, .body, .body] = .ok (var "x''") ∧
      t'.subterm [.arg, .func] = .ok (var "z") ∧ t'.binderAt [.func, .body] = some "y" ∧
      ((app (lam "x" (lam "y" (var "x"))) (app (var "x") (lam "x" (var "x")))).subst "x"
        (var "z") .stop).outcome = .ok s ∧ t'.AlphaEq s := by
  have ht : (app (lam "x" (lam "y" (var "x"))) (app (var "x") (lam "x" (var "x")))).WellFormed := by
    decide
  have hretire : (app (lam "x" (lam "y" (var "x"))) (app (var "x") (lam "x" (var "x")))).retire "x"
      ["x", "y", "x'"] "z" (-1) = .ok (app (lam "x''" (lam "y" (var "x''")))
        (app (var "z") (lam "x'''" (var "x'''"))), 3) := by decide +kernel
  have hnames : (app (lam "x" (lam "y" (var "x")))
      (app (var "x") (lam "x" (var "x")))).allNames = .ok ["y", "x"] := by cbv
  obtain ⟨t', count', paths, counts, names, hretire', hnames', _, _, _, _, _, _, hfree, hbound, hother,
    _, _, hsubst⟩ := retire_marks_in_preorder ht (show "z" ≠ "" by decide) "x" (-1) ["x", "y", "x'"]
  cases hretire.symm.trans hretire'
  cases hnames.symm.trans hnames'
  obtain ⟨s, hs, halpha⟩ := hsubst (by decide) (by decide) .stop
  obtain ⟨new, hnew, hvar⟩ := hbound [.func, .body, .body] [.func]
    (.func (.here (.body (.var "x") (by decide))) _) rfl
  cases hnew
  exact ⟨_, s, hretire, rfl, hvar, hfree [.arg, .func] (.arg (.func (.var "x") _) _),
    hother [.func, .body] "y" rfl (by decide), hs, halpha⟩

end UntypedLambda.Term

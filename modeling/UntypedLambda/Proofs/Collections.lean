import Mathlib.Data.Finset.Dedup
import Mathlib.Data.Finset.Lattice.Basic
import Mathlib.Data.Finset.SDiff
import UntypedLambda.Proofs.Names
import UntypedLambda.Proofs.Positions
/-!
# The collections and the structure of a term

Both collections are loops over what is still to be visited, and add to one result what they find. The
collection of free names goes from the root down: with each pending term it keeps the binders above it, and
a variable counts only if none of them has its name. The free names by structure go from the leaves up, and
lose a name at each of its binders. A name that is bound in one part of a term and free in another is passed
over here and found there, in whatever order the parts are visited.

The two meet in the occurrences of names, which the loops have been shown to find. What is left is to say
the same of the structure, both of the recursion on sets of names and of what stands at the ends of paths.
-/

namespace UntypedLambda.Term

variable {t : Term} {n : Name} {walk : Walk} {leaf : Foreign} {α : Type}

/-- The free names by structure: an abstraction takes its binder from those of its body, an application
has those of both sides. -/
def freeNames : Term → Finset Name
  | var name => {name}
  | lam binder body => body.freeNames \ {binder}
  | app func arg => func.freeNames ∪ arg.freeNames
  | foreign _ => ∅

theorem mem_freeNames_iff : n ∈ t.freeNames ↔ n ∈ t.free := by
  induction t with
  | var name => simp [freeNames]
  | lam binder body ih => simp [freeNames, ih]
  | app func arg ihf iha => simp [freeNames, ihf, iha]
  | foreign leaf => simp [freeNames, free]

/-! ### Occurrences at the ends of paths -/

theorem mem_free_iff_exists_subterm :
    n ∈ t.free ↔ ∃ path, t.subterm path = .ok (var n) ∧ n ∉ t.bindersAlong path := by
  induction t with
  | var name => simp [subterm_var_eq_ok_iff]
  | lam binder body ih =>
    rw [mem_free_lam, ih]
    constructor
    · rintro ⟨⟨path, hpath, hbinders⟩, hne⟩
      exact ⟨.body :: path, hpath, List.not_mem_cons_of_ne_of_not_mem hne hbinders⟩
    · rintro ⟨path, hpath, hbinders⟩
      rcases subterm_lam_eq_ok_iff.1 hpath with ⟨_, hvar⟩ | ⟨rest, rfl, hrest⟩
      · cases hvar
      · rw [bindersAlong, List.mem_cons, not_or] at hbinders
        exact ⟨⟨rest, hrest, hbinders.2⟩, hbinders.1⟩
  | app func arg ihf iha =>
    rw [mem_free_app, ihf, iha]
    constructor
    · rintro (⟨path, hpath, hbinders⟩ | ⟨path, hpath, hbinders⟩)
      · exact ⟨.func :: path, hpath, hbinders⟩
      · exact ⟨.arg :: path, hpath, hbinders⟩
    · rintro ⟨path, hpath, hbinders⟩
      rcases subterm_app_eq_ok_iff.1 hpath with ⟨_, hvar⟩ | ⟨rest, rfl, hrest⟩ | ⟨rest, rfl, hrest⟩
      · cases hvar
      · exact .inl ⟨rest, hrest, hbinders⟩
      · exact .inr ⟨rest, hrest, hbinders⟩
  | foreign leaf => simp [free, subterm_foreign_eq_ok_iff]

theorem mem_binders_iff_exists_binderAt : n ∈ t.binders ↔ ∃ path, t.binderAt path = some n := by
  induction t with
  | var name => simp [binders]
  | lam binder body ih => simp [binders, binderAt_lam_eq_some_iff, ih, exists_or]
  | app func arg ihf iha => simp [binders, binderAt_app_eq_some_iff, ihf, iha, exists_or]
  | foreign leaf => simp [binders, binderAt_eq_some_iff, subterm_foreign_eq_ok_iff]

theorem mem_labels_iff_exists_subterm :
    n ∈ t.labels ↔ (∃ path, t.subterm path = .ok (var n)) ∨ ∃ path, t.binderAt path = some n := by
  rw [mem_labels_iff, mem_free_iff_exists_subterm, mem_binders_iff_exists_binderAt]
  constructor
  · rintro (⟨path, hpath, _⟩ | hbinder)
    · exact .inl ⟨path, hpath⟩
    · exact .inr hbinder
  · rintro (⟨path, hpath⟩ | hbinder)
    · by_cases hbound : n ∈ t.bindersAlong path
      · -- A binder above the variable has its name, and stands at the end of a part of the path.
        obtain ⟨outer, inner, hbinders⟩ := List.append_of_mem hbound
        obtain ⟨above, _, body, _, habove, _⟩ := exists_subterm_of_bindersAlong hpath hbinders
        exact .inr ⟨above, binderAt_eq_some_iff.2 ⟨body, habove⟩⟩
      · exact .inl ⟨path, hpath, hbound⟩
    · exact .inr hbinder

/-! ### Where a collection is refused -/

def FirstForeignAt (t : Term) : Path → Foreign → Prop :=
  Path.First Path.Precedes fun path leaf => t.subterm path = .ok (foreign leaf)

/-- A walk with this outcome fails exactly if the term has a foreign leaf somewhere, and its fault shows
the first of them. -/
structure RefusesForeign (t : Term) (walk : Walk) (outcome : Except Fault α) : Prop where
  fails_iff : (∃ fault, outcome = .error fault) ↔ ∃ path leaf, t.subterm path = .ok (foreign leaf)
  first_of_fails : ∀ fault, outcome = .error fault →
    ∃ path leaf, t.FirstForeignAt path leaf ∧ fault = .stray walk leaf

theorem exists_firstForeignAt {others : List Foreign} (h : t.foreignLeaves = leaf :: others) :
    ∃ path, t.FirstForeignAt path leaf := by
  induction t generalizing others with
  | var name => cases h
  | lam binder body ih =>
    obtain ⟨path, hpath⟩ := ih h
    exact ⟨.body :: path, hpath.behind .body (by simp [subterm_lam_eq_ok_iff])⟩
  | app func arg ihf iha =>
    have hsides : ∀ {q b}, (app func arg).subterm q = .ok (foreign b) ↔
        (∃ rest, q = .func :: rest ∧ func.subterm rest = .ok (foreign b)) ∨
          ∃ rest, q = .arg :: rest ∧ arg.subterm rest = .ok (foreign b) := by
      simp [subterm_app_eq_ok_iff]
    rw [foreignLeaves] at h
    cases hfunc : func.foreignLeaves with
    | nil =>
      rw [hfunc] at h
      obtain ⟨path, hpath⟩ := iha h
      exact ⟨.arg :: path, Path.First.ofArg hsides hpath (foreignLeaves_eq_nil_iff.1 hfunc)⟩
    | cons first rest =>
      rw [hfunc] at h
      cases h
      obtain ⟨path, hpath⟩ := ihf hfunc
      exact ⟨.func :: path, Path.First.ofFunc hsides hpath⟩
  | foreign leaf' =>
    cases h
    exact ⟨[], Path.first_nil rfl⟩

theorem refusesForeign_of_foreignLeaves {outcome : Except Fault α}
    (hplain : t.foreignLeaves = [] → ∃ a, outcome = .ok a)
    (hforeign : ∀ {leaf others}, t.foreignLeaves = leaf :: others →
      outcome = .error (.stray walk leaf)) : t.RefusesForeign walk outcome := by
  cases hleaves : t.foreignLeaves with
  | nil =>
    obtain ⟨a, rfl⟩ := hplain hleaves
    have hnone := foreignLeaves_eq_nil_iff.1 hleaves
    constructor
    · simp [hnone]
    · intro fault hfault
      cases hfault
  | cons leaf others =>
    obtain rfl := hforeign hleaves
    obtain ⟨path, hpath⟩ := exists_firstForeignAt hleaves
    refine ⟨iff_of_true ⟨_, rfl⟩ ⟨path, leaf, hpath.1⟩, ?_⟩
    intro fault hfault
    cases hfault
    exact ⟨path, leaf, hpath, rfl⟩

/-! ### What is collected -/

/-- Both collections fail exactly on a term with a foreign leaf, by the fault of the first, and
otherwise hold, each name once, what the structure of the term says. -/
theorem collections_by_structure (t : Term) :
    t.RefusesForeign .freeVars t.freeVars ∧ t.RefusesForeign .allNames t.allNames ∧
    ((∀ path leaf, t.subterm path ≠ .ok (foreign leaf)) →
      ∃ free all, t.freeVars = .ok free ∧ t.allNames = .ok all ∧ free.Nodup ∧ all.Nodup ∧
        free.toFinset = t.freeNames ∧
        (∀ n, n ∈ free ↔ ∃ path, t.subterm path = .ok (var n) ∧ n ∉ t.bindersAlong path) ∧
        (∀ n, n ∈ all ↔
          (∃ path, t.subterm path = .ok (var n)) ∨ ∃ path, t.binderAt path = some n) ∧
        all.toFinset = free.toFinset ∪ t.binders.toFinset) := by
  refine ⟨?_, ?_, ?_⟩
  · refine refusesForeign_of_foreignLeaves ?_ freeVars_of_foreign
    intro hplain
    obtain ⟨names, hnames, _⟩ := freeVars_of_plain hplain
    exact ⟨names, hnames⟩
  · refine refusesForeign_of_foreignLeaves ?_ allNames_of_foreign
    intro hplain
    obtain ⟨names, hnames, _⟩ := allNames_of_plain hplain
    exact ⟨names, hnames⟩
  · intro hnone
    have hplain := foreignLeaves_eq_nil_iff.2 hnone
    obtain ⟨free, hfree, hmemFree⟩ := freeVars_of_plain hplain
    obtain ⟨all, hall, hmemAll⟩ := allNames_of_plain hplain
    refine ⟨free, all, hfree, hall, collectFree_nodup _ .nil hfree, collectNames_nodup _ .nil hall,
      ?_, ?_, ?_, ?_⟩
    · ext n
      rw [List.mem_toFinset, hmemFree, mem_freeNames_iff]
    · intro n
      rw [hmemFree, mem_free_iff_exists_subterm]
    · intro n
      rw [hmemAll, mem_labels_iff_exists_subterm]
    · ext n
      rw [Finset.mem_union, List.mem_toFinset, List.mem_toFinset, List.mem_toFinset, hmemAll,
        hmemFree, mem_labels_iff]

/-- A name is bound on one side of an application and free on the other, and a binder has a name that no
variable has. -/
theorem collections_by_structure_bound_beside_free :
    ∃ free all,
      (app (lam "x" (lam "y" (var "x"))) (app (var "x") (var "z"))).freeVars = .ok free ∧
      (app (lam "x" (lam "y" (var "x"))) (app (var "x") (var "z"))).allNames = .ok all ∧
      free.toFinset = {"x", "z"} ∧ all.toFinset = {"x", "y", "z"} := by
  obtain ⟨_, _, hcollected⟩ :=
    collections_by_structure (app (lam "x" (lam "y" (var "x"))) (app (var "x") (var "z")))
  obtain ⟨free, all, hfree, hall, _, _, hset, _, _, hunion⟩ :=
    hcollected (foreignLeaves_eq_nil_iff.1 rfl)
  refine ⟨free, all, hfree, hall, hset.trans (by decide), ?_⟩
  rw [hunion, hset]
  decide

end UntypedLambda.Term

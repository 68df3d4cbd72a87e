import Mathlib.Data.List.Nodup
import UntypedLambda.Fresh
import UntypedLambda.Term.Names
import UntypedLambda.Term.Occurrence
/-!
# What the collectors collect and what minting avoids

The collections of free names and of all names are loops over pending terms, and the occurrences of
names are recursions on the term. On a term without a foreign leaf the two agree, and each name is
collected once. Everything else that is proved about a collected list uses only this, never the loop or
the order of the list.
-/

namespace UntypedLambda

namespace Term

/-- A name that occurs at all is free or the name of a binder, since a bound variable has the name of
its binder. -/
theorem mem_labels_iff {t : Term} {n : Name} : n ∈ t.labels ↔ n ∈ t.free ∨ n ∈ t.binders := by
  induction t with
  | var name => simp [labels, binders]
  | lam binder body ih =>
    simp only [labels, binders, mem_free_lam, List.mem_cons, ih]
    grind
  | app func arg ihf iha =>
    simp only [labels, binders, mem_free_app, List.mem_append, ihf, iha]
    exact or_or_or_comm
  | foreign leaf => simp [labels, free, binders]

/-- The invariant of the loop: the result is what has been found and, of each pending term, the free
names that none of the binders above it has. -/
theorem collectFree_of_plain (pending : List (Term × List Name)) (found : List Name)
    (hplain : ∀ item ∈ pending, item.1.foreignLeaves = []) :
    ∃ names, collectFree pending found = .ok names ∧
      ∀ n, n ∈ names ↔ n ∈ found ∨ ∃ item ∈ pending, n ∈ item.1.free ∧ n ∉ item.2 := by
  fun_induction collectFree pending found with
  | case1 found => exact ⟨found, rfl, by simp⟩
  | case2 name bound rest found ih =>
    rw [List.forall_mem_cons] at hplain
    obtain ⟨names, hnames, hmem⟩ := ih hplain.2
    refine ⟨names, hnames, fun n => ?_⟩
    rw [hmem n]
    simp only [List.mem_cons, exists_eq_or_imp, mem_free_var]
    by_cases hbound : name ∈ bound
    · rw [dif_pos hbound]
      grind
    · rw [dif_neg hbound, List.mem_insert_iff]
      grind
  | case3 binder body bound rest found ih =>
    rw [List.forall_mem_cons] at hplain
    obtain ⟨names, hnames, hmem⟩ := ih (List.forall_mem_cons.2 hplain)
    refine ⟨names, hnames, fun n => ?_⟩
    rw [hmem n]
    simp only [List.mem_cons, exists_eq_or_imp, mem_free_lam]
    grind
  | case4 func arg bound rest found ih =>
    rw [List.forall_mem_cons] at hplain
    obtain ⟨hfunc, harg⟩ := List.append_eq_nil_iff.1 hplain.1
    obtain ⟨names, hnames, hmem⟩ :=
      ih (List.forall_mem_cons.2 ⟨hfunc, List.forall_mem_cons.2 ⟨harg, hplain.2⟩⟩)
    refine ⟨names, hnames, fun n => ?_⟩
    rw [hmem n]
    simp only [List.mem_cons, exists_eq_or_imp, mem_free_app]
    grind
  | case5 leaf bound rest found => exact absurd (hplain _ List.mem_cons_self) (List.cons_ne_nil _ _)

theorem collectFree_of_foreign (pending : List (Term × List Name)) (found : List Name)
    {leaf : Foreign} {others : List Foreign}
    (h : pending.flatMap (fun item => item.1.foreignLeaves) = leaf :: others) :
    collectFree pending found = .error (.stray .freeVars leaf) := by
  fun_induction collectFree pending found with
  | case1 found => cases h
  | case2 name bound rest found ih => exact ih h
  | case3 binder body bound rest found ih => exact ih h
  | case4 func arg bound rest found ih =>
    apply ih
    rw [← h]
    simp [foreignLeaves]
  | case5 leaf' bound rest found =>
    cases h
    rfl

theorem collectNames_of_plain (pending : List Term) (found : List Name)
    (hplain : ∀ t ∈ pending, t.foreignLeaves = []) :
    ∃ names, collectNames pending found = .ok names ∧
      ∀ n, n ∈ names ↔ n ∈ found ∨ ∃ t ∈ pending, n ∈ t.labels := by
  fun_induction collectNames pending found with
  | case1 found => exact ⟨found, rfl, by simp⟩
  | case2 name rest found ih =>
    rw [List.forall_mem_cons] at hplain
    obtain ⟨names, hnames, hmem⟩ := ih hplain.2
    refine ⟨names, hnames, fun n => ?_⟩
    rw [hmem n, List.mem_insert_iff]
    simp only [List.mem_cons, exists_eq_or_imp, labels, List.not_mem_nil, or_false]
    grind
  | case3 binder body rest found ih =>
    rw [List.forall_mem_cons] at hplain
    obtain ⟨names, hnames, hmem⟩ := ih (List.forall_mem_cons.2 hplain)
    refine ⟨names, hnames, fun n => ?_⟩
    rw [hmem n, List.mem_insert_iff]
    simp only [List.mem_cons, exists_eq_or_imp, labels]
    grind
  | case4 func arg rest found ih =>
    rw [List.forall_mem_cons] at hplain
    obtain ⟨hfunc, harg⟩ := List.append_eq_nil_iff.1 hplain.1
    obtain ⟨names, hnames, hmem⟩ :=
      ih (List.forall_mem_cons.2 ⟨hfunc, List.forall_mem_cons.2 ⟨harg, hplain.2⟩⟩)
    refine ⟨names, hnames, fun n => ?_⟩
    rw [hmem n]
    simp only [List.mem_cons, exists_eq_or_imp, labels, List.mem_append]
    grind
  | case5 leaf rest found => exact absurd (hplain _ List.mem_cons_self) (List.cons_ne_nil _ _)

theorem collectNames_of_foreign (pending : List Term) (found : List Name) {leaf : Foreign}
    {others : List Foreign} (h : pending.flatMap foreignLeaves = leaf :: others) :
    collectNames pending found = .error (.stray .allNames leaf) := by
  fun_induction collectNames pending found with
  | case1 found => cases h
  | case2 name rest found ih => exact ih h
  | case3 binder body rest found ih => exact ih h
  | case4 func arg rest found ih =>
    apply ih
    rw [← h]
    simp [foreignLeaves]
  | case5 leaf' rest found =>
    cases h
    rfl

theorem freeVars_of_plain {t : Term} (hplain : t.foreignLeaves = []) :
    ∃ names, t.freeVars = .ok names ∧ ∀ n, n ∈ names ↔ n ∈ t.free := by
  obtain ⟨names, hnames, hmem⟩ := collectFree_of_plain [(t, [])] [] (by simpa using hplain)
  exact ⟨names, hnames, fun n => (hmem n).trans (by simp)⟩

theorem freeVars_of_foreign {t : Term} {leaf : Foreign} {others : List Foreign}
    (h : t.foreignLeaves = leaf :: others) : t.freeVars = .error (.stray .freeVars leaf) :=
  collectFree_of_foreign [(t, [])] [] (by simpa using h)

theorem allNames_of_plain {t : Term} (hplain : t.foreignLeaves = []) :
    ∃ names, t.allNames = .ok names ∧ ∀ n, n ∈ names ↔ n ∈ t.labels := by
  obtain ⟨names, hnames, hmem⟩ := collectNames_of_plain [t] [] (by simpa using hplain)
  exact ⟨names, hnames, fun n => (hmem n).trans (by simp)⟩

theorem allNames_of_foreign {t : Term} {leaf : Foreign} {others : List Foreign}
    (h : t.foreignLeaves = leaf :: others) : t.allNames = .error (.stray .allNames leaf) :=
  collectNames_of_foreign [t] [] (by simpa using h)

/-! ### Each name once -/

theorem collectFree_nodup (pending : List (Term × List Name)) {found names : List Name}
    (hfound : found.Nodup) (h : collectFree pending found = .ok names) : names.Nodup := by
  fun_induction collectFree pending found with
  | case1 found =>
    cases h
    exact hfound
  | case2 name bound rest found ih =>
    apply ih _ h
    split
    · exact hfound
    · exact hfound.insert
  | case3 binder body bound rest found ih => exact ih hfound h
  | case4 func arg bound rest found ih => exact ih hfound h
  | case5 leaf bound rest found => cases h

theorem collectNames_nodup (pending : List Term) {found names : List Name} (hfound : found.Nodup)
    (h : collectNames pending found = .ok names) : names.Nodup := by
  fun_induction collectNames pending found with
  | case1 found =>
    cases h
    exact hfound
  | case2 name rest found ih => exact ih hfound.insert h
  | case3 binder body rest found ih => exact ih hfound.insert h
  | case4 func arg rest found ih => exact ih hfound h
  | case5 leaf rest found => cases h

end Term

/-! ### Minted names

A candidate extends its base name, and the search stops only at one that is not to be avoided. -/

theorem mint_notMem (base : Name) (count : Int) (avoid : List Name) :
    (mint base count avoid).1 ∉ avoid := by
  fun_induction mint base count avoid with
  | case1 count hmem ih => exact ih
  | case2 count hmem => exact hmem

theorem mint_fst (base : Name) (count : Int) (avoid : List Name) :
    (mint base count avoid).1 = marked base (mint base count avoid).2 := by
  fun_induction mint base count avoid with
  | case1 count hmem ih => exact ih
  | case2 count hmem => rfl

theorem lt_mint_snd (base : Name) (count : Int) (avoid : List Name) :
    count < (mint base count avoid).2 := by
  fun_induction mint base count avoid with
  | case1 count hmem ih => omega
  | case2 count hmem => exact Int.lt_succ count

theorem marked_ne {count : Int} (hcount : 0 < count) (base : Name) : marked base count ≠ base := by
  intro heq
  have hlength := length_marked base count
  rw [heq] at hlength
  omega

theorem marked_inj {base : Name} {marks marks' : Int} (h : marked base marks = marked base marks')
    (hmarks : 0 < marks) (hmarks' : 0 < marks') : marks = marks' := by
  have hlength := congrArg String.length h
  rw [length_marked, length_marked] at hlength
  omega

theorem mint_ne_empty {base : Name} (hbase : base ≠ "") (count : Int) (avoid : List Name) :
    (mint base count avoid).1 ≠ "" := by
  intro hempty
  have hlength := length_marked base (mint base count avoid).2
  rw [← mint_fst, hempty, String.length_empty] at hlength
  apply hbase
  apply String.length_eq_zero_iff.1
  omega

theorem mint_ne_empty_of_nonneg (base : Name) {count : Int} (hcount : 0 ≤ count) (avoid : List Name) :
    (mint base count avoid).1 ≠ "" := by
  intro hempty
  have hmarks := lt_mint_snd base count avoid
  have hlength := length_marked base (mint base count avoid).2
  rw [← mint_fst, hempty, String.length_empty] at hlength
  omega

end UntypedLambda

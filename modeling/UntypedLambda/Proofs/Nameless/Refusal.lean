import UntypedLambda.Proofs.Alpha
import UntypedLambda.Proofs.Nameless.Faithful
import UntypedLambda.Proofs.Positions
/-!
# What the encoding refuses

Only leaves are ever refused: a foreign leaf, and a variable that neither a binder above it nor the
context names. The fault is that of the first such leaf in preorder. For a variable it tells the names
in scope there, which are the context and then the binders above the variable: what was passed in
another part of the term leaves no trace.

Without a context nothing but a foreign leaf can be refused, and that happens already when the free
names are collected.
-/

namespace UntypedLambda

def Nameless.shape : Nameless → Term
  | var _ => .var ""
  | lam body => .lam "" body.shape
  | app func arg => .app func.shape arg.shape

namespace Term

variable {t func arg body : Term} {context : List Name} {path other : Path} {fault fault' : Fault}
  {n binder : Name} {leaf : Foreign} {T : Nameless}

theorem shape_eq_of_encodeIn {scope : List Name} (h : t.encodeIn scope = .ok T) :
    T.shape = t.shape := by
  induction T generalizing t scope with
  | var i =>
    obtain ⟨n, rfl, _⟩ := eq_var_of_encodeIn h
    rfl
  | lam B ih =>
    obtain ⟨binder, body, rfl, hB⟩ := eq_lam_of_encodeIn h
    rw [Nameless.shape, shape, ih hB]
  | app F A ihF ihA =>
    obtain ⟨func, arg, rfl, hF, hA⟩ := eq_app_of_encodeIn h
    rw [Nameless.shape, shape, ihF hF, ihA hA]

/-! ### The leaves that are refused -/

inductive Refused (scope : List Name) : Term → Fault → Prop
  | foreign (leaf : Foreign) : Refused scope (.foreign leaf) (.stray .encoding leaf)
  | unbound {n : Name} (h : n ∉ scope) : Refused scope (.var n) (.unbound n scope)

/-- The leaf at the end of a path is refused under the context and the binders above the leaf. -/
def RefusedAt (t : Term) (context : List Name) (path : Path) (fault : Fault) : Prop :=
  ∃ leaf, t.subterm path = .ok leaf ∧ Refused (context ++ t.bindersAlong path) leaf fault

def FirstRefusedAt (t : Term) (context : List Name) (path : Path) (fault : Fault) : Prop :=
  Path.First Path.Precedes (t.RefusedAt context) path fault

theorem RefusedAt.unique (h : t.RefusedAt context path fault)
    (h' : t.RefusedAt context path fault') : fault = fault' := by
  obtain ⟨leaf, hleaf, hrefused⟩ := h
  obtain ⟨leaf', hleaf', hrefused'⟩ := h'
  rw [hleaf] at hleaf'
  cases hleaf'
  cases hrefused with
  | foreign =>
    cases hrefused'
    rfl
  | unbound =>
    cases hrefused'
    rfl

/-! ### Refusal, node by node -/

theorem refusedAt_var_iff :
    (var n).RefusedAt context path fault ↔
      path = [] ∧ n ∉ context ∧ fault = .unbound n context := by
  constructor
  · rintro ⟨leaf, hleaf, hrefused⟩
    obtain ⟨rfl, rfl⟩ := subterm_var_eq_ok_iff.1 hleaf
    rw [bindersAlong_nil, List.append_nil] at hrefused
    cases hrefused with
    | unbound hn => exact ⟨rfl, hn, rfl⟩
  · rintro ⟨rfl, hn, rfl⟩
    refine ⟨var n, rfl, ?_⟩
    rw [bindersAlong_nil, List.append_nil]
    exact .unbound hn

theorem refusedAt_foreign_iff :
    (foreign leaf).RefusedAt context path fault ↔ path = [] ∧ fault = .stray .encoding leaf := by
  constructor
  · rintro ⟨_, hleaf, hrefused⟩
    obtain ⟨rfl, rfl⟩ := subterm_foreign_eq_ok_iff.1 hleaf
    cases hrefused
    exact ⟨rfl, rfl⟩
  · rintro ⟨rfl, rfl⟩
    exact ⟨foreign leaf, rfl, .foreign leaf⟩

theorem refusedAt_lam_iff :
    (lam binder body).RefusedAt context path fault ↔
      ∃ rest, path = .body :: rest ∧ body.RefusedAt (context ++ [binder]) rest fault := by
  constructor
  · rintro ⟨leaf, hleaf, hrefused⟩
    rcases subterm_lam_eq_ok_iff.1 hleaf with ⟨rfl, rfl⟩ | ⟨rest, rfl, hrest⟩
    · cases hrefused
    · refine ⟨rest, rfl, leaf, hrest, ?_⟩
      rw [List.append_assoc]
      exact hrefused
  · rintro ⟨rest, rfl, leaf, hleaf, hrefused⟩
    rw [List.append_assoc] at hrefused
    exact ⟨leaf, hleaf, hrefused⟩

theorem refusedAt_app_iff :
    (app func arg).RefusedAt context path fault ↔
      (∃ rest, path = .func :: rest ∧ func.RefusedAt context rest fault) ∨
      ∃ rest, path = .arg :: rest ∧ arg.RefusedAt context rest fault := by
  constructor
  · rintro ⟨leaf, hleaf, hrefused⟩
    rcases subterm_app_eq_ok_iff.1 hleaf with ⟨rfl, rfl⟩ | ⟨rest, rfl, hrest⟩ | ⟨rest, rfl, hrest⟩
    · cases hrefused
    · exact .inl ⟨rest, rfl, leaf, hrest, hrefused⟩
    · exact .inr ⟨rest, rfl, leaf, hrest, hrefused⟩
  · rintro (⟨rest, rfl, leaf, hleaf, hrefused⟩ | ⟨rest, rfl, leaf, hleaf, hrefused⟩)
    · exact ⟨leaf, hleaf, hrefused⟩
    · exact ⟨leaf, hleaf, hrefused⟩

/-! ### The encoding against the leaves -/

theorem encode_lam (binder : Name) (body : Term) (context : List Name) :
    (lam binder body).encode context = do return .lam (← body.encode (context ++ [binder])) := by
  rw [encode, encode, List.reverse_append]
  rfl

theorem encode_app (func arg : Term) (context : List Name) :
    (app func arg).encode context = do
      let func ← func.encode context
      let arg ← arg.encode context
      return .app func arg :=
  rfl

theorem not_refusedAt_of_encode (h : t.encode context = .ok T) (path : Path) (fault : Fault) :
    ¬ t.RefusedAt context path fault := by
  induction t generalizing context path T with
  | var n =>
    rw [refusedAt_var_iff]
    rintro ⟨_, hn, _⟩
    obtain ⟨i, hi, _⟩ := encodeIn_var_eq_ok_iff.1 h
    have hmem : n ∈ context.reverse := List.isSome_idxOf?.1 (by rw [hi]; rfl)
    exact hn (List.mem_reverse.1 hmem)
  | lam binder body ih =>
    rw [refusedAt_lam_iff]
    rintro ⟨rest, _, hrest⟩
    rw [encode_lam] at h
    obtain ⟨B, hB, _⟩ := bind_eq_ok_iff.1 h
    exact ih hB rest hrest
  | app func arg ihf iha =>
    rw [refusedAt_app_iff]
    obtain ⟨F, hF, h⟩ := bind_eq_ok_iff.1 h
    obtain ⟨A, hA, _⟩ := bind_eq_ok_iff.1 h
    rintro (⟨rest, _, hrest⟩ | ⟨rest, _, hrest⟩)
    · exact ihf hF rest hrest
    · exact iha hA rest hrest
  | foreign leaf => cases h

theorem exists_firstRefusedAt (h : t.encode context = .error fault) :
    ∃ path, t.FirstRefusedAt context path fault := by
  induction t generalizing context with
  | var n =>
    rw [encode, encodeIn] at h
    split at h
    · cases h
    · rename_i hnone
      have hn : n ∉ context := fun hmem =>
        List.idxOf?_eq_none_iff.1 hnone (List.mem_reverse.2 hmem)
      rw [List.reverse_reverse] at h
      cases h
      exact ⟨[], Path.first_nil (refusedAt_var_iff.2 ⟨rfl, hn, rfl⟩)⟩
  | lam binder body ih =>
    rw [encode_lam] at h
    rcases bind_eq_error_iff.1 h with hbody | ⟨_, _, h⟩
    · obtain ⟨path, hpath⟩ := ih hbody
      exact ⟨.body :: path, hpath.behind .body refusedAt_lam_iff⟩
    · cases h
  | app func arg ihf iha =>
    rw [encode_app] at h
    rcases bind_eq_error_iff.1 h with hfunc | ⟨F, hF, h⟩
    · obtain ⟨path, hpath⟩ := ihf hfunc
      exact ⟨.func :: path, hpath.ofFunc refusedAt_app_iff⟩
    rcases bind_eq_error_iff.1 h with harg | ⟨_, _, h⟩
    · -- The function was encoded before the argument, so nothing in it is refused.
      obtain ⟨path, hpath⟩ := iha harg
      exact ⟨.arg :: path, hpath.ofArg refusedAt_app_iff (not_refusedAt_of_encode hF)⟩
    · cases h
  | foreign leaf =>
    cases h
    exact ⟨[], Path.first_nil (refusedAt_foreign_iff.2 ⟨rfl, rfl⟩)⟩

theorem encode_eq_error_iff :
    t.encode context = .error fault ↔ ∃ path, t.FirstRefusedAt context path fault := by
  refine ⟨exists_firstRefusedAt, ?_⟩
  rintro ⟨path, hpath⟩
  cases hencode : t.encode context with
  | ok T => exact absurd hpath.1 (not_refusedAt_of_encode hencode path fault)
  | error fault' =>
    obtain ⟨path', hpath'⟩ := exists_firstRefusedAt hencode
    rw [hpath.unique hpath' RefusedAt.unique]

/-! ### Without a context -/

theorem pairwise_sorted_of_freeVars {names : List Name} (h : t.freeVars = .ok names) :
    (Text.sorted names).Pairwise (· < ·) := by
  have hnodup : (Text.sorted names).Nodup :=
    (Text.sorted_perm names).nodup_iff.2 (collectFree_nodup _ .nil h)
  refine ((Text.pairwise_sorted names).and hnodup).imp ?_
  rintro a b ⟨hle, hne⟩
  apply Classical.byContradiction
  intro hlt
  exact hne (String.le_antisymm hle (String.not_lt.1 hlt))

/-- A term is encoded exactly if it has no foreign leaf and its free variables are named; otherwise
the fault is that of the first leaf in preorder that is refused. -/
theorem encode_refuses_first_leaf (t : Term) :
    (∀ context : List Name,
      ((∃ T, t.encodeWith (some context) = .ok T) ↔
        t.foreignLeaves = [] ∧ ∃ names, t.freeVars = .ok names ∧ names ⊆ context) ∧
      (∀ T, t.encodeWith (some context) = .ok T →
        T.shape = t.shape ∧ T.ScopedIn context.length) ∧
      ∀ fault, t.encodeWith (some context) = .error fault ↔
        ∃ path, t.FirstRefusedAt context path fault) ∧
    (t.foreignLeaves = [] → ∃ names T, t.freeVars = .ok names ∧
      (Text.sorted names).Pairwise (· < ·) ∧ (∀ n, n ∈ Text.sorted names ↔ n ∈ names) ∧
      t.encodeWith none = .ok T ∧ t.encodeWith (some (Text.sorted names)) = .ok T) ∧
    ∀ leaf others, t.foreignLeaves = leaf :: others →
      t.encodeWith none = .error (.stray .freeVars leaf) := by
  refine ⟨fun context => ⟨?_, ?_, fun fault => encode_eq_error_iff⟩, ?_, ?_⟩
  · rw [encodeWith, encode, exists_encodeIn_iff]
    apply and_congr_right
    intro hplain
    obtain ⟨names, hnames, hmem⟩ := freeVars_of_plain hplain
    simp [hnames, hmem, List.subset_def]
  · intro T hT
    refine ⟨shape_eq_of_encodeIn hT, ?_⟩
    rw [← List.length_reverse]
    exact scopedIn_of_encodeIn hT
  · intro hplain
    obtain ⟨names, hnames, hmem⟩ := freeVars_of_plain hplain
    have hsorted : ∀ n, n ∈ Text.sorted names ↔ n ∈ names := fun n =>
      (Text.sorted_perm names).mem_iff
    have halone : t.encodeWith none = t.encode (Text.sorted names) := by
      rw [encodeWith, encodeAlone, hnames]
      rfl
    obtain ⟨T, hT⟩ : ∃ T, t.encode (Text.sorted names) = .ok T := by
      refine exists_encodeIn_iff.2 ⟨hplain, fun n hn => ?_⟩
      rw [List.mem_reverse, hsorted, hmem]
      exact hn
    exact ⟨names, T, hnames, pairwise_sorted_of_freeVars hnames, hsorted, halone.trans hT, hT⟩
  · intro leaf others hleaves
    rw [encodeWith, encodeAlone, freeVars_of_foreign hleaves]
    rfl

/-- A variable is named by a binder beside it but by none above it, and a foreign leaf comes after. -/
theorem encode_refuses_first_leaf_sibling :
    (app (lam "x" (var "x")) (lam "y" (app (var "x") (foreign .bare)))).encodeWith (some ["a"]) =
        .error (.unbound "x" ["a", "y"]) ∧
      (app (lam "x" (var "x")) (lam "y" (app (var "x") (foreign .bare)))).encodeWith none =
        .error (.stray .freeVars .bare) := by
  obtain ⟨hcontext, _, halone⟩ :=
    encode_refuses_first_leaf (app (lam "x" (var "x")) (lam "y" (app (var "x") (foreign .bare))))
  have hvar : (var "x").FirstRefusedAt (["a"] ++ ["y"]) [] (.unbound "x" ["a", "y"]) :=
    Path.first_nil (refusedAt_var_iff.2 ⟨rfl, by decide, rfl⟩)
  have hbody : (app (var "x") (foreign .bare)).FirstRefusedAt (["a"] ++ ["y"]) [.func] _ :=
    hvar.ofFunc refusedAt_app_iff
  have hfunc : (lam "x" (var "x")).encode ["a"] = .ok (.lam (.var 0)) := by decide
  refine ⟨((hcontext ["a"]).2.2 _).2 ⟨[.arg, .body, .func], ?_⟩, halone .bare [] rfl⟩
  exact (hbody.behind .body refusedAt_lam_iff).ofArg refusedAt_app_iff
    (not_refusedAt_of_encode hfunc)

end Term

end UntypedLambda

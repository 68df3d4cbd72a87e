import Mathlib.Data.List.Nodup
import UntypedLambda.Proofs.Nameless.Encoding
import UntypedLambda.Proofs.Names
/-!
# The encoding is faithful

The nameless form of a term tells everything about it except the choice of bound names, and every
nameless term whose indices stay in scope is the form of some term. To find that term a binder is
given a name that is not yet in scope, so that it hides none of those that may be needed below it.

Without a context a term is encoded in that of its own free names, in order. Terms with the same free
names are then encoded in the same context, in whatever order their names were collected.
-/

namespace UntypedLambda

namespace Nameless

/-- Every index belongs to an enclosing abstraction or to one of so many names in scope. -/
def ScopedIn (size : Nat) : Nameless → Prop
  | var index => index < size
  | lam body => body.ScopedIn (size + 1)
  | app func arg => func.ScopedIn size ∧ arg.ScopedIn size

instance decidableScopedIn : (size : Nat) → (t : Nameless) → Decidable (t.ScopedIn size)
  | size, var index => inferInstanceAs (Decidable (index < size))
  | size, lam body => decidableScopedIn (size + 1) body
  | size, app func arg =>
    have := decidableScopedIn size func
    have := decidableScopedIn size arg
    inferInstanceAs (Decidable (func.ScopedIn size ∧ arg.ScopedIn size))

end Nameless

namespace Term

variable {t u : Term} {scope : List Name} {T : Nameless}

/-! ### Every index in scope is taken -/

theorem scopedIn_of_encodeIn (hT : t.encodeIn scope = .ok T) : T.ScopedIn scope.length := by
  induction T generalizing t scope with
  | var i =>
    obtain ⟨n, rfl, hi⟩ := eq_var_of_encodeIn hT
    exact idxOf?_lt hi
  | lam B ih =>
    obtain ⟨binder, body, rfl, hB⟩ := eq_lam_of_encodeIn hT
    have hbody : B.ScopedIn (binder :: scope).length := ih hB
    exact hbody
  | app F A ihF ihA =>
    obtain ⟨func, arg, rfl, hF, hA⟩ := eq_app_of_encodeIn hT
    exact ⟨ihF hF, ihA hA⟩

theorem idxOf?_getElem_of_nodup (hnodup : scope.Nodup) {i : Nat} (hi : i < scope.length) :
    scope.idxOf? scope[i] = some i := by
  refine List.idxOf?_eq_some_iff.2 ⟨hi, rfl, ?_⟩
  intro j hj heq
  have hij : j = i := hnodup.getElem_inj_iff.1 heq
  omega

theorem exists_encodeIn_of_scopedIn (hnodup : scope.Nodup) (hnames : "" ∉ scope)
    (hT : T.ScopedIn scope.length) : ∃ t : Term, t.WellFormed ∧ t.encodeIn scope = .ok T := by
  induction T generalizing scope with
  | var i =>
    have hname : scope[i] ≠ "" := fun hempty => hnames (hempty ▸ List.getElem_mem hT)
    have hindex := idxOf?_getElem_of_nodup hnodup hT
    exact ⟨var scope[i], hname, encodeIn_var_eq_ok_iff.2 ⟨i, hindex, rfl⟩⟩
  | lam B ih =>
    -- The new binder hides no name in scope, so the names below it still differ from one another.
    have hfresh : (mint "x" 0 scope).1 ∉ scope := mint_notMem "x" 0 scope
    have hbinder : (mint "x" 0 scope).1 ≠ "" := mint_ne_empty (by decide) 0 scope
    have hnames' : "" ∉ (mint "x" 0 scope).1 :: scope := by
      rw [List.mem_cons, not_or]
      exact ⟨hbinder.symm, hnames⟩
    obtain ⟨body, hwf, hB⟩ := ih (List.nodup_cons.2 ⟨hfresh, hnodup⟩) hnames' hT
    exact ⟨lam _ body, ⟨hbinder, hwf⟩, encodeIn_lam_eq_ok_iff.2 ⟨B, hB, rfl⟩⟩
  | app F A ihF ihA =>
    obtain ⟨func, hfuncwf, hF⟩ := ihF hnodup hnames hT.1
    obtain ⟨arg, hargwf, hA⟩ := ihA hnodup hnames hT.2
    exact ⟨app func arg, ⟨hfuncwf, hargwf⟩, encodeIn_app_eq_ok_iff.2 ⟨F, A, hF, hA, rfl⟩⟩

end Term

/-! ### The context of a term's own free names -/

theorem Text.pairwise_sorted (texts : List String) : (sorted texts).Pairwise (· ≤ ·) := by
  have hle : ∀ a b : String, (!decide (b < a)) = true ↔ a ≤ b := by
    intro a b
    rw [Bool.not_eq_true', decide_eq_false_iff_not, String.not_lt]
  have hpairwise : (sorted texts).Pairwise fun a b => (!decide (b < a)) = true := by
    apply List.pairwise_mergeSort
    · intro a b c hab hbc
      rw [hle] at hab hbc ⊢
      exact String.le_trans hab hbc
    · intro a b
      rw [Bool.or_eq_true, hle, hle]
      exact String.le_total a b
  exact hpairwise.imp fun {a b} hab => (hle a b).1 hab

theorem Text.sorted_perm (texts : List String) : (sorted texts).Perm texts :=
  List.mergeSort_perm texts _

theorem Text.sorted_eq_of_perm {left right : List String} (h : left.Perm right) :
    sorted left = sorted right := by
  have hperm : (sorted left).Perm (sorted right) :=
    (sorted_perm left).trans (h.trans (sorted_perm right).symm)
  refine hperm.eq_of_pairwise ?_ (pairwise_sorted left) (pairwise_sorted right)
  intro a b _ _ hab hba
  exact String.le_antisymm hab hba

namespace Term

variable {t u : Term}

theorem exists_encodeAlone_eq_encode (ht : t.WellFormed) (hu : u.WellFormed)
    (hfree : ∀ n, n ∈ t.free ↔ n ∈ u.free) :
    ∃ context, (∀ n, n ∈ context ↔ n ∈ t.free) ∧ t.encodeAlone = t.encode context ∧
      u.encodeAlone = u.encode context := by
  obtain ⟨names, hnames, hmem⟩ := freeVars_of_plain ht.foreignLeaves_eq_nil
  obtain ⟨names', hnames', hmem'⟩ := freeVars_of_plain hu.foreignLeaves_eq_nil
  have hperm : names.Perm names' := by
    refine (List.perm_ext_iff_of_nodup (collectFree_nodup _ .nil hnames)
      (collectFree_nodup _ .nil hnames')).2 fun n => ?_
    rw [hmem, hmem', hfree]
  refine ⟨Text.sorted names, fun n => ?_, ?_, ?_⟩
  · rw [(Text.sorted_perm names).mem_iff, hmem]
  · rw [encodeAlone, hnames]
    rfl
  · rw [encodeAlone, hnames', Text.sorted_eq_of_perm hperm]
    rfl

/-! ### Alpha-equivalence is decided by the encoding -/

theorem exists_encode_eq_iff {context : List Name} (ht : t.WellFormed) (hu : u.WellFormed)
    (htcontext : ∀ n ∈ t.free, n ∈ context) (hucontext : ∀ n ∈ u.free, n ∈ context) :
    ∃ T U, t.encode context = .ok T ∧ u.encode context = .ok U ∧ (T = U ↔ t.AlphaEq u) := by
  obtain ⟨T, hT⟩ := ht.exists_encode htcontext
  obtain ⟨U, hU⟩ := hu.exists_encode hucontext
  refine ⟨T, U, hT, hU, ?_, ?_⟩
  · rintro rfl
    exact alphaUnder_of_encodeIn_eq hT hU
  · intro halpha
    have hU' : u.encode context = .ok T := AlphaUnder.encodeIn_eq halpha hT
    rw [hU] at hU'
    exact (Except.ok.inj hU').symm

theorem exists_encodeAlone_eq_iff (ht : t.WellFormed) (hu : u.WellFormed)
    (hfree : ∀ n, n ∈ t.free ↔ n ∈ u.free) :
    ∃ T U, t.encodeAlone = .ok T ∧ u.encodeAlone = .ok U ∧ (T = U ↔ t.AlphaEq u) := by
  obtain ⟨context, hcontext, htalone, hualone⟩ := exists_encodeAlone_eq_encode ht hu hfree
  rw [htalone, hualone]
  refine exists_encode_eq_iff ht hu (fun n hn => (hcontext n).2 hn) fun n hn => ?_
  exact (hcontext n).2 ((hfree n).2 hn)

/-- Terms have the same nameless form exactly if they are alpha-equivalent, in any context that
names their free variables; every nameless term in scope is the form of some term. -/
theorem encode_decides_alphaEq :
    (∀ (context : List Name) (t u : Term), t.WellFormed → u.WellFormed →
      (∀ n ∈ t.free, n ∈ context) → (∀ n ∈ u.free, n ∈ context) →
      ∃ T U, t.encode context = .ok T ∧ u.encode context = .ok U ∧ (T = U ↔ t.AlphaEq u)) ∧
    (∀ context : List Name, context.Nodup → "" ∉ context → ∀ T : Nameless,
      T.ScopedIn context.length ↔ ∃ t : Term, t.WellFormed ∧ t.encode context = .ok T) ∧
    ∀ t u : Term, t.WellFormed → u.WellFormed →
      (t.AlphaEq u → ∃ T, t.encodeAlone = .ok T ∧ u.encodeAlone = .ok T) ∧
      ((∀ n, n ∈ t.free ↔ n ∈ u.free) → t.encodeAlone = u.encodeAlone → t.AlphaEq u) := by
  refine ⟨fun context t u => exists_encode_eq_iff, ?_, ?_⟩
  · intro context hnodup hnames T
    constructor
    · intro hT
      rw [← List.length_reverse] at hT
      exact exists_encodeIn_of_scopedIn (List.nodup_reverse.2 hnodup)
        (fun h => hnames (List.mem_reverse.1 h)) hT
    · rintro ⟨t, _, hT⟩
      rw [← List.length_reverse]
      exact scopedIn_of_encodeIn hT
  · intro t u ht hu
    constructor
    · intro halpha
      have hfree : ∀ n, n ∈ t.free ↔ n ∈ u.free := by
        intro n
        simpa using AlphaUnder.mem_free_iff halpha n
      obtain ⟨T, U, hT, hU, hiff⟩ := exists_encodeAlone_eq_iff ht hu hfree
      obtain rfl : T = U := hiff.2 halpha
      exact ⟨T, hT, hU⟩
    · intro hfree heq
      obtain ⟨T, U, hT, hU, hiff⟩ := exists_encodeAlone_eq_iff ht hu hfree
      rw [hT, hU] at heq
      exact hiff.1 (Except.ok.inj heq)

/-- The name that is tried first for the binder is in scope, and so is the next one. -/
theorem encode_decides_alphaEq_taken_names :
    ∃ t : Term, t.WellFormed ∧
      t.encode ["x''", "x'"] = .ok (.lam (.app (.app (.var 2) (.var 1)) (.var 0))) :=
  (encode_decides_alphaEq.2.1 ["x''", "x'"] (by decide) (by decide) _).1 (by decide)

end Term

end UntypedLambda

import UntypedLambda.Proofs.Nameless.Faithful
import UntypedLambda.Term.Path
/-!
# Longer contexts

Names that are put into a context hide nothing that a term needs if each of them that is free in the
term is named again further in. The nameless form then changes by a shift: an index that led to a name
beyond the new ones leads past them, and all others stay. How far an index leads beyond the term is
told by the abstractions above it, one for each body edge on the way to it.
-/

namespace UntypedLambda

namespace Nameless

def indexAt : Nameless → Path → Option Nat
  | var index, [] => some index
  | lam body, .body :: path => body.indexAt path
  | app func _, .func :: path => func.indexAt path
  | app _ arg, .arg :: path => arg.indexAt path
  | _, _ => none

theorem shift_var (amount cutoff index : Nat) :
    (var index).shift amount cutoff =
      var (if cutoff ≤ index then index + amount else index) := by
  rw [shift]
  by_cases hindex : index < cutoff
  · rw [if_pos hindex, if_neg (Nat.not_le.2 hindex)]
  · rw [if_neg hindex, if_pos (Nat.not_lt.1 hindex)]

theorem indexAt_shift (amount cutoff : Nat) (T : Nameless) (path : Path) :
    (T.shift amount cutoff).indexAt path = (T.indexAt path).map fun index =>
      if cutoff + path.count .body ≤ index then index + amount else index := by
  induction T generalizing cutoff path with
  | var index =>
    rw [shift_var]
    cases path with
    | nil => rfl
    | cons edge path => rfl
  | lam body ih =>
    cases path with
    | nil => rfl
    | cons edge path =>
      cases edge with
      | body =>
        rw [shift, indexAt, indexAt, ih, List.count_cons_self, Nat.add_right_comm, Nat.add_assoc]
      | func => rfl
      | arg => rfl
  | app func arg ihf iha =>
    cases path with
    | nil => rfl
    | cons edge path =>
      cases edge with
      | func => rw [shift, indexAt, indexAt, ihf, List.count_cons_of_ne (by decide)]
      | arg => rw [shift, indexAt, indexAt, iha, List.count_cons_of_ne (by decide)]
      | body => rfl

theorem ScopedIn.shift_eq {T : Nameless} {size : Nat} (h : T.ScopedIn size) (amount : Nat) :
    T.shift amount size = T := by
  induction T generalizing size with
  | var index => rw [shift_var, if_neg (Nat.not_le.2 h)]
  | lam body ih => rw [shift, ih h]
  | app func arg ihf iha => rw [shift, ihf h.1, iha h.2]

end Nameless

namespace Term

variable {t : Term} {T : Nameless}

theorem encode_insert (outer inserted inner : List Name) (h : t.encode (outer ++ inner) = .ok T)
    (hhidden : ∀ n ∈ inserted, n ∈ t.free → n ∈ inner) :
    t.encode (outer ++ inserted ++ inner) = .ok (T.shift inserted.length inner.length) := by
  -- A scope lists the names of its context from the inner end.
  rw [encode, List.reverse_append] at h
  have hshift := encodeIn_insert inner.reverse inserted.reverse outer.reverse h (by simpa using hhidden)
  rw [List.length_reverse, List.length_reverse] at hshift
  rw [encode, List.reverse_append, List.reverse_append]
  exact hshift

/-- To put names into a context is to shift the indices beyond them, if each of them that is free in
the term is named further in as well. -/
theorem encode_insert_context {t : Term} (ht : t.WellFormed) :
    ∃ names, t.freeVars = .ok names ∧
      (∀ outer inserted inner : List Name, names ⊆ outer ++ inner →
        (∀ n ∈ inserted, n ∈ names → n ∈ inner) →
        ∃ T T', t.encode (outer ++ inner) = .ok T ∧ t.encode (outer ++ inserted ++ inner) = .ok T' ∧
          T' = T.shift inserted.length inner.length ∧
          ∀ path, T'.indexAt path = (T.indexAt path).map fun index =>
            if path.count .body + inner.length ≤ index then index + inserted.length else index) ∧
      ∀ outer context : List Name, names ⊆ context →
        ∃ T, t.encode context = .ok T ∧ t.encode (outer ++ context) = .ok T := by
  obtain ⟨names, hnames, hmem⟩ := freeVars_of_plain ht.foreignLeaves_eq_nil
  have hencode : ∀ context : List Name, names ⊆ context → ∃ T, t.encode context = .ok T := by
    intro context hcontext
    exact ht.exists_encode fun n hn => hcontext ((hmem n).2 hn)
  refine ⟨names, hnames, ?_, ?_⟩
  · intro outer inserted inner hcontext hhidden
    obtain ⟨T, hT⟩ := hencode (outer ++ inner) hcontext
    have hshift := encode_insert outer inserted inner hT fun n hn hfree =>
      hhidden n hn ((hmem n).2 hfree)
    refine ⟨T, _, hT, hshift, rfl, fun path => ?_⟩
    rw [Nameless.indexAt_shift, Nat.add_comm inner.length]
  · intro outer context hcontext
    obtain ⟨T, hT⟩ := hencode context hcontext
    have hshift := encode_insert [] outer context hT fun n _ hfree => hcontext ((hmem n).2 hfree)
    have hscoped : T.ScopedIn context.reverse.length := scopedIn_of_encodeIn hT
    rw [List.length_reverse] at hscoped
    rw [List.nil_append, hscoped.shift_eq] at hshift
    exact ⟨T, hT, hshift⟩

/-- Of the new names the first is bound in the term, and the second is free in it and named again further
in. -/
theorem encode_insert_context_repeated_names :
    ∃ T T', (lam "x" (app (app (var "a") (var "x")) (var "b"))).encode (["a"] ++ ["b"]) = .ok T ∧
      (lam "x" (app (app (var "a") (var "x")) (var "b"))).encode
        (["a"] ++ ["x", "b", "c"] ++ ["b"]) = .ok T' ∧
      T.indexAt [.body, .func, .func] = some 2 ∧ T'.indexAt [.body, .func, .func] = some 5 ∧
      T.indexAt [.body, .arg] = some 1 ∧ T'.indexAt [.body, .arg] = some 1 := by
  obtain ⟨names, hnames, hinsert, _⟩ := encode_insert_context
    (show (lam "x" (app (app (var "a") (var "x")) (var "b"))).WellFormed by decide)
  have hfree : (lam "x" (app (app (var "a") (var "x")) (var "b"))).freeVars = .ok ["b", "a"] := by cbv
  obtain rfl := Except.ok.inj (hfree.symm.trans hnames)
  obtain ⟨T, T', hT, hT', _, hindex⟩ :=
    hinsert ["a"] ["x", "b", "c"] ["b"] (by decide) (by decide)
  cases hT
  exact ⟨_, T', rfl, hT', rfl, hindex [.body, .func, .func], rfl, hindex [.body, .arg]⟩

end Term

end UntypedLambda

import UntypedLambda.Nameless.Encoding
import UntypedLambda.Nameless.Substitution
import UntypedLambda.Proofs.Alpha
/-!
# The nameless form under a change of scope

A term has a nameless form exactly under the scopes that name its free variables, and the form
depends on the scope only through the positions of those names. Names that are put into a scope where
they hide nothing shift the indices beyond them. Terms that differ in the choice of bound names have
the same nameless form, and two terms with the same form differ in nothing else: the encoding is
compared here with alpha-equivalence, which is defined without it.
-/

namespace UntypedLambda

/-! ### Positions in a scope -/

theorem idxOf?_append (inner outer : List Name) (n : Name) :
    (inner ++ outer).idxOf? n =
      (inner.idxOf? n).or ((outer.idxOf? n).map (· + inner.length)) := by
  rw [List.idxOf?, List.findIdx?_append]

theorem idxOf?_lt {scope : List Name} {n : Name} {i : Nat} (h : scope.idxOf? n = some i) :
    i < scope.length := by
  obtain ⟨hlt, _⟩ := List.idxOf?_eq_some_iff.1 h
  exact hlt

theorem idxOf?_inj {scope : List Name} {m n : Name} {i : Nat} (hm : scope.idxOf? m = some i)
    (hn : scope.idxOf? n = some i) : m = n := by
  obtain ⟨_, rfl, _⟩ := List.idxOf?_eq_some_iff.1 hm
  obtain ⟨_, rfl, _⟩ := List.idxOf?_eq_some_iff.1 hn
  rfl

theorem idxOf?_insert {inner inserted outer : List Name} {n : Name} {i : Nat}
    (h : (inner ++ outer).idxOf? n = some i) (hhidden : n ∈ inserted → n ∈ inner) :
    (inner ++ (inserted ++ outer)).idxOf? n =
      some (if i < inner.length then i else i + inserted.length) := by
  rw [idxOf?_append] at h ⊢
  cases hinner : inner.idxOf? n with
  | some j =>
    rw [hinner, Option.some_or] at h
    cases h
    rw [Option.some_or, if_pos (idxOf?_lt hinner)]
  | none =>
    have hout : n ∉ inserted := fun hmem => List.idxOf?_eq_none_iff.1 hinner (hhidden hmem)
    rw [hinner, Option.none_or] at h
    obtain ⟨j, hj, rfl⟩ := Option.map_eq_some_iff.1 h
    rw [Option.none_or, idxOf?_append, List.idxOf?_eq_none_iff.2 hout, hj, Option.none_or,
      Option.map_some, Option.map_some, if_neg (by omega)]
    congr 1
    omega

theorem idxOf?_remove {inner outer : List Name} {x n : Name} {i : Nat}
    (h : (inner ++ x :: outer).idxOf? n = some i) (hne : n ≠ x) :
    i ≠ inner.length ∧
      (inner ++ outer).idxOf? n = some (if i < inner.length then i else i - 1) := by
  rw [idxOf?_append] at h ⊢
  cases hinner : inner.idxOf? n with
  | some j =>
    have hlt := idxOf?_lt hinner
    rw [hinner, Option.some_or] at h
    cases h
    exact ⟨by omega, by rw [Option.some_or, if_pos hlt]⟩
  | none =>
    rw [hinner, Option.none_or, List.idxOf?_cons, if_neg (by simpa using hne.symm)] at h
    obtain ⟨j, hj, rfl⟩ := Option.map_eq_some_iff.1 h
    obtain ⟨k, hk, rfl⟩ := Option.map_eq_some_iff.1 hj
    refine ⟨by omega, ?_⟩
    rw [Option.none_or, hk, Option.map_some, if_neg (by omega)]
    congr 1
    omega

namespace Term

/-! ### The nameless form, node by node -/

variable {scope : List Name} {t func arg body : Term} {n binder : Name} {T : Nameless}

theorem encodeIn_var_eq_ok_iff :
    (var n).encodeIn scope = .ok T ↔ ∃ i, scope.idxOf? n = some i ∧ T = .var i := by
  rw [encodeIn]
  cases scope.idxOf? n with
  | none => simp
  | some i => simp [eq_comm]

theorem encodeIn_lam_eq_ok_iff :
    (lam binder body).encodeIn scope = .ok T ↔
      ∃ B, body.encodeIn (binder :: scope) = .ok B ∧ T = .lam B := by
  rw [encodeIn, bind_eq_ok_iff]
  simp only [pure, Except.pure, Except.ok.injEq, eq_comm]

theorem encodeIn_app_eq_ok_iff :
    (app func arg).encodeIn scope = .ok T ↔
      ∃ F A, func.encodeIn scope = .ok F ∧ arg.encodeIn scope = .ok A ∧ T = .app F A := by
  simp only [encodeIn, bind_eq_ok_iff, pure, Except.pure, Except.ok.injEq, exists_and_left]
  simp only [eq_comm]

theorem encodeIn_foreign_ne_ok {leaf : Foreign} : (foreign leaf).encodeIn scope ≠ .ok T := by
  simp [encodeIn]

/-! The nodes of the nameless form are those of the term. -/

theorem eq_var_of_encodeIn {i : Nat} (h : t.encodeIn scope = .ok (.var i)) :
    ∃ n, t = var n ∧ scope.idxOf? n = some i := by
  cases t with
  | var n =>
    obtain ⟨j, hj, hij⟩ := encodeIn_var_eq_ok_iff.1 h
    cases hij
    exact ⟨n, rfl, hj⟩
  | lam binder body => simp [encodeIn_lam_eq_ok_iff] at h
  | app func arg => simp [encodeIn_app_eq_ok_iff] at h
  | foreign leaf => exact absurd h encodeIn_foreign_ne_ok

theorem eq_lam_of_encodeIn {B : Nameless} (h : t.encodeIn scope = .ok (.lam B)) :
    ∃ binder body, t = lam binder body ∧ body.encodeIn (binder :: scope) = .ok B := by
  cases t with
  | var n => simp [encodeIn_var_eq_ok_iff] at h
  | lam binder body =>
    obtain ⟨B', hB', hB⟩ := encodeIn_lam_eq_ok_iff.1 h
    cases hB
    exact ⟨binder, body, rfl, hB'⟩
  | app func arg => simp [encodeIn_app_eq_ok_iff] at h
  | foreign leaf => exact absurd h encodeIn_foreign_ne_ok

theorem eq_app_of_encodeIn {F A : Nameless} (h : t.encodeIn scope = .ok (.app F A)) :
    ∃ func arg, t = app func arg ∧ func.encodeIn scope = .ok F ∧ arg.encodeIn scope = .ok A := by
  cases t with
  | var n => simp [encodeIn_var_eq_ok_iff] at h
  | lam binder body => simp [encodeIn_lam_eq_ok_iff] at h
  | app func arg =>
    obtain ⟨F', A', hF', hA', hFA⟩ := encodeIn_app_eq_ok_iff.1 h
    cases hFA
    exact ⟨func, arg, rfl, hF', hA'⟩
  | foreign leaf => exact absurd h encodeIn_foreign_ne_ok

/-! ### Which scopes will do -/

/-- A term has a nameless form under exactly the scopes that name its free variables. -/
theorem exists_encodeIn_iff :
    (∃ T, t.encodeIn scope = .ok T) ↔ t.foreignLeaves = [] ∧ ∀ n ∈ t.free, n ∈ scope := by
  induction t generalizing scope with
  | var name =>
    constructor
    · rintro ⟨T, hT⟩
      obtain ⟨i, hi, _⟩ := encodeIn_var_eq_ok_iff.1 hT
      refine ⟨rfl, fun n hn => ?_⟩
      rw [mem_free_var.1 hn, ← List.isSome_idxOf?, hi]
      rfl
    · rintro ⟨_, hfree⟩
      have hname : (scope.idxOf? name).isSome := List.isSome_idxOf?.2 (hfree name (mem_free_var.2 rfl))
      obtain ⟨i, hi⟩ := Option.isSome_iff_exists.1 hname
      exact ⟨.var i, encodeIn_var_eq_ok_iff.2 ⟨i, hi, rfl⟩⟩
  | lam binder body ih =>
    constructor
    · rintro ⟨T, hT⟩
      obtain ⟨B, hB, _⟩ := encodeIn_lam_eq_ok_iff.1 hT
      obtain ⟨hplain, hfree⟩ := ih.1 ⟨B, hB⟩
      refine ⟨hplain, fun n hn => ?_⟩
      obtain ⟨hbody, hne⟩ := mem_free_lam.1 hn
      exact (List.mem_cons.1 (hfree n hbody)).resolve_left hne
    · rintro ⟨hplain, hfree⟩
      have hbody : ∀ n ∈ body.free, n ∈ binder :: scope := by
        intro n hn
        by_cases hbinder : n = binder
        · exact hbinder ▸ List.mem_cons_self
        · exact List.mem_cons_of_mem _ (hfree n (mem_free_lam.2 ⟨hn, hbinder⟩))
      obtain ⟨B, hB⟩ := ih.2 ⟨hplain, hbody⟩
      exact ⟨.lam B, encodeIn_lam_eq_ok_iff.2 ⟨B, hB, rfl⟩⟩
  | app func arg ihf iha =>
    constructor
    · rintro ⟨T, hT⟩
      obtain ⟨F, A, hF, hA, _⟩ := encodeIn_app_eq_ok_iff.1 hT
      obtain ⟨hfuncPlain, hfunc⟩ := ihf.1 ⟨F, hF⟩
      obtain ⟨hargPlain, harg⟩ := iha.1 ⟨A, hA⟩
      refine ⟨List.append_eq_nil_iff.2 ⟨hfuncPlain, hargPlain⟩, fun n hn => ?_⟩
      exact (mem_free_app.1 hn).elim (hfunc n) (harg n)
    · rintro ⟨hplain, hfree⟩
      obtain ⟨hfuncPlain, hargPlain⟩ := List.append_eq_nil_iff.1 hplain
      obtain ⟨F, hF⟩ := ihf.2 ⟨hfuncPlain, fun n hn => hfree n (mem_free_app.2 (.inl hn))⟩
      obtain ⟨A, hA⟩ := iha.2 ⟨hargPlain, fun n hn => hfree n (mem_free_app.2 (.inr hn))⟩
      exact ⟨.app F A, encodeIn_app_eq_ok_iff.2 ⟨F, A, hF, hA, rfl⟩⟩
  | foreign leaf => simp [encodeIn_foreign_ne_ok, foreignLeaves]

theorem WellFormed.exists_encodeIn (ht : t.WellFormed) (hscope : ∀ n ∈ t.free, n ∈ scope) :
    ∃ T, t.encodeIn scope = .ok T :=
  exists_encodeIn_iff.2 ⟨ht.foreignLeaves_eq_nil, hscope⟩

theorem WellFormed.exists_encode {context : List Name} (ht : t.WellFormed)
    (hcontext : ∀ n ∈ t.free, n ∈ context) : ∃ T, t.encode context = .ok T :=
  ht.exists_encodeIn fun n hn => List.mem_reverse.2 (hcontext n hn)

/-- Names put into a scope raise the indices beyond them, if each of them that is free in the term is
hidden by a name further in. -/
theorem encodeIn_insert (inner inserted outer : List Name) (h : t.encodeIn (inner ++ outer) = .ok T)
    (hhidden : ∀ n ∈ inserted, n ∈ t.free → n ∈ inner) :
    t.encodeIn (inner ++ (inserted ++ outer)) = .ok (T.shift inserted.length inner.length) := by
  induction t generalizing inner T with
  | var name =>
    obtain ⟨i, hi, rfl⟩ := encodeIn_var_eq_ok_iff.1 h
    have hpos := idxOf?_insert hi fun hmem => hhidden name hmem (mem_free_var.2 rfl)
    refine encodeIn_var_eq_ok_iff.2 ⟨_, hpos, ?_⟩
    rw [Nameless.shift]
    split <;> rfl
  | lam binder body ih =>
    obtain ⟨B, hB, rfl⟩ := encodeIn_lam_eq_ok_iff.1 h
    rw [← List.cons_append] at hB
    refine encodeIn_lam_eq_ok_iff.2 ⟨_, ih _ hB fun n hn hfree => ?_, rfl⟩
    by_cases hbinder : n = binder
    · exact hbinder ▸ List.mem_cons_self
    · exact List.mem_cons_of_mem _ (hhidden n hn (mem_free_lam.2 ⟨hfree, hbinder⟩))
  | app func arg ihf iha =>
    obtain ⟨F, A, hF, hA, rfl⟩ := encodeIn_app_eq_ok_iff.1 h
    have hfunc := ihf inner hF fun n hn hfree => hhidden n hn (mem_free_app.2 (.inl hfree))
    have harg := iha inner hA fun n hn hfree => hhidden n hn (mem_free_app.2 (.inr hfree))
    exact encodeIn_app_eq_ok_iff.2 ⟨_, _, hfunc, harg, rfl⟩
  | foreign leaf => exact absurd h encodeIn_foreign_ne_ok

end Term

/-! ### Alpha-equivalence

Pairs of binders are two scopes side by side, before a scope that both terms share. -/

theorem SameReference.idxOf?_eq {pairs : List (Name × Name)} {left right : Name}
    (h : SameReference pairs left right) (shared : List Name) :
    (pairs.map Prod.fst ++ shared).idxOf? left = (pairs.map Prod.snd ++ shared).idxOf? right := by
  induction pairs with
  | nil =>
    obtain rfl : left = right := h
    rfl
  | cons pair pairs ih =>
    obtain ⟨x, y⟩ := pair
    simp only [List.map_cons, List.cons_append, List.idxOf?_cons]
    rcases h with ⟨rfl, rfl⟩ | ⟨hx, hy, h⟩
    · simp
    · rw [if_neg (by simpa using hx.symm), if_neg (by simpa using hy.symm), ih h]

theorem sameReference_of_idxOf?_eq {pairs : List (Name × Name)} {shared : List Name}
    {left right : Name} {i : Nat} (hleft : (pairs.map Prod.fst ++ shared).idxOf? left = some i)
    (hright : (pairs.map Prod.snd ++ shared).idxOf? right = some i) :
    SameReference pairs left right := by
  induction pairs generalizing i with
  | nil => exact idxOf?_inj hleft hright
  | cons pair pairs ih =>
    obtain ⟨x, y⟩ := pair
    simp only [List.map_cons, List.cons_append, List.idxOf?_cons, beq_iff_eq] at hleft hright
    split at hleft
    · cases hleft
      split at hright
      · exact .inl ⟨by simp_all, by simp_all⟩
      · simp at hright
    · obtain ⟨j, hj, rfl⟩ := Option.map_eq_some_iff.1 hleft
      split at hright
      · simp at hright
      · obtain ⟨k, hk, hkj⟩ := Option.map_eq_some_iff.1 hright
        obtain rfl : k = j := by omega
        rename_i hx hy
        exact .inr ⟨Ne.symm hx, Ne.symm hy, ih hj hk⟩

namespace Term

theorem AlphaUnder.encodeIn_eq {pairs : List (Name × Name)} {t u : Term} (h : AlphaUnder pairs t u)
    {shared : List Name} {T : Nameless}
    (ht : t.encodeIn (pairs.map Prod.fst ++ shared) = .ok T) :
    u.encodeIn (pairs.map Prod.snd ++ shared) = .ok T := by
  induction t generalizing pairs u T with
  | var left =>
    obtain ⟨i, hi, rfl⟩ := encodeIn_var_eq_ok_iff.1 ht
    obtain ⟨right, rfl, hsame⟩ := h.var_left
    rw [hsame.idxOf?_eq shared] at hi
    exact encodeIn_var_eq_ok_iff.2 ⟨i, hi, rfl⟩
  | lam x left ih =>
    obtain ⟨B, hB, rfl⟩ := encodeIn_lam_eq_ok_iff.1 ht
    obtain ⟨y, right, rfl, hbody⟩ := h.lam_left
    exact encodeIn_lam_eq_ok_iff.2 ⟨B, ih hbody hB, rfl⟩
  | app func arg ihf iha =>
    obtain ⟨F, A, hF, hA, rfl⟩ := encodeIn_app_eq_ok_iff.1 ht
    obtain ⟨func', arg', rfl, hfunc, harg⟩ := h.app_left
    exact encodeIn_app_eq_ok_iff.2 ⟨F, A, ihf hfunc hF, iha harg hA, rfl⟩
  | foreign leaf => exact absurd ht encodeIn_foreign_ne_ok

theorem alphaUnder_of_encodeIn_eq {pairs : List (Name × Name)} {shared : List Name} {t u : Term}
    {T : Nameless} (ht : t.encodeIn (pairs.map Prod.fst ++ shared) = .ok T)
    (hu : u.encodeIn (pairs.map Prod.snd ++ shared) = .ok T) : AlphaUnder pairs t u := by
  induction T generalizing pairs t u with
  | var i =>
    obtain ⟨left, rfl, hleft⟩ := eq_var_of_encodeIn ht
    obtain ⟨right, rfl, hright⟩ := eq_var_of_encodeIn hu
    exact sameReference_of_idxOf?_eq hleft hright
  | lam B ih =>
    obtain ⟨x, left, rfl, hleft⟩ := eq_lam_of_encodeIn ht
    obtain ⟨y, right, rfl, hright⟩ := eq_lam_of_encodeIn hu
    have hbody : AlphaUnder ((x, y) :: pairs) left right := ih hleft hright
    exact hbody
  | app F A ihF ihA =>
    obtain ⟨func, arg, rfl, hF, hA⟩ := eq_app_of_encodeIn ht
    obtain ⟨func', arg', rfl, hF', hA'⟩ := eq_app_of_encodeIn hu
    exact ⟨ihF hF hF', ihA hA hA'⟩

end Term

end UntypedLambda

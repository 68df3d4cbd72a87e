import UntypedLambda.Proofs.Positions
import UntypedLambda.Proofs.Substitution.Encoding
/-!
# Substitution node by node

The result of a substitution has the nodes of the term, except that the replacement stands where the
target was free. This is said by one relation that walks term and result at once, under the pairs of
binders passed so far, as alpha-equivalence does: a variable that is not replaced refers to the same
pair on both sides, or is the same name where no pair has it.

A binder that is exchanged on the way drops out of the account. The term is alpha-equivalent to the one
with the exchanged binder, and the pairs of the two comparisons compose.
-/

namespace UntypedLambda

namespace SameReference

variable {pairs : List (Name × Name)} {left right : Name}

theorem append_same (h : SameReference pairs left right) (binder : Name) :
    SameReference (pairs ++ [(binder, binder)]) left right := by
  induction pairs with
  | nil =>
    obtain rfl : left = right := h
    by_cases hbinder : left = binder
    · exact .inl ⟨hbinder, hbinder⟩
    · exact .inr ⟨hbinder, hbinder, rfl⟩
  | cons pair pairs ih =>
    rcases h with h | ⟨hleft, hright, h⟩
    · exact .inl h
    · exact .inr ⟨hleft, hright, ih h⟩

/-- Comparisons compose along binders that are linked in threes. -/
theorem trans (links : List (Name × Name × Name)) {left middle right : Name}
    (h : SameReference (links.map fun link => (link.1, link.2.1)) left middle)
    (h' : SameReference (links.map Prod.snd) middle right) :
    SameReference (links.map fun link => (link.1, link.2.2)) left right := by
  induction links with
  | nil => exact Eq.trans h h'
  | cons link links ih =>
    rcases h with ⟨hleft, hmiddle⟩ | ⟨hleft, hmiddle, h⟩
    · rcases h' with ⟨_, hright⟩ | ⟨hne, _, _⟩
      · exact .inl ⟨hleft, hright⟩
      · exact absurd hmiddle hne
    · rcases h' with ⟨heq, _⟩ | ⟨_, hright, h'⟩
      · exact absurd heq hmiddle
      · exact .inr ⟨hleft, hright, ih h h'⟩

end SameReference

namespace Substitution

open Term

/-- A term and a result of substitution in it, under pairs of binders, innermost first. -/
inductive Grafted (σ : Substitution) : List (Name × Name) → Term → Term → Prop
  /-- The target is replaced where no binder has its name. -/
  | target {pairs : List (Name × Name)} (hfree : σ.target ∉ pairs.map Prod.fst) :
      Grafted σ pairs (.var σ.target) σ.replacement
  | var {pairs : List (Name × Name)} {n n' : Name}
      (hkept : n = σ.target → n ∈ pairs.map Prod.fst) (hsame : SameReference pairs n n') :
      Grafted σ pairs (.var n) (.var n')
  | lam {pairs : List (Name × Name)} {x y : Name} {body body' : Term}
      (hbody : Grafted σ ((x, y) :: pairs) body body') : Grafted σ pairs (.lam x body) (.lam y body')
  | app {pairs : List (Name × Name)} {func arg func' arg' : Term}
      (hfunc : Grafted σ pairs func func') (harg : Grafted σ pairs arg arg') :
      Grafted σ pairs (.app func arg) (.app func' arg')
  | foreign {pairs : List (Name × Name)} (leaf : Foreign) :
      Grafted σ pairs (.foreign leaf) (.foreign leaf)

variable {σ : Substitution} {t u r : Term} {pairs : List (Name × Name)} {path owner : Path} {n : Name}

/-- Under a binder of its name the target is nowhere free, so a term is its own result. -/
theorem Grafted.refl (t : Term) (hpairs : ∀ pair ∈ pairs, pair.1 = pair.2)
    (htarget : σ.target ∈ pairs.map Prod.fst) : Grafted σ pairs t t := by
  induction t generalizing pairs with
  | var n => exact .var (fun heq => heq ▸ htarget) (SameReference.refl hpairs n)
  | lam binder body ih =>
    apply Grafted.lam
    apply ih
    · intro pair hpair
      rcases List.mem_cons.1 hpair with rfl | hpair
      · rfl
      · exact hpairs pair hpair
    · exact List.mem_cons_of_mem binder htarget
  | app func arg ihf iha => exact .app (ihf hpairs htarget) (iha hpairs htarget)
  | foreign leaf => exact .foreign leaf

theorem Grafted.append_same (h : Grafted σ pairs t r) {binder : Name} (hbinder : binder ≠ σ.target) :
    Grafted σ (pairs ++ [(binder, binder)]) t r := by
  induction h with
  | target hfree =>
    apply Grafted.target
    rw [List.map_append, List.mem_append, not_or]
    exact ⟨hfree, fun hmem => hbinder (List.mem_singleton.1 hmem).symm⟩
  | var hkept hsame =>
    refine .var (fun heq => ?_) (hsame.append_same binder)
    rw [List.map_append]
    exact List.mem_append_left _ (hkept heq)
  | lam _ ih => exact .lam ih
  | app _ _ ihf iha => exact .app ihf iha
  | foreign leaf => exact .foreign leaf

theorem Grafted.of_alphaUnder (links : List (Name × Name × Name))
    (h : AlphaUnder (links.map fun link => (link.1, link.2.1)) t u)
    (hu : Grafted σ (links.map Prod.snd) u r) :
    Grafted σ (links.map fun link => (link.1, link.2.2)) t r := by
  induction t generalizing links u r with
  | var n =>
    obtain ⟨m, rfl, hsame⟩ := h.var_left
    have hfree := hsame.eq_and_notMem_iff
    simp only [List.map_map, Function.comp_def] at hfree
    cases hu with
    | target hnot =>
      simp only [List.map_map, Function.comp_def] at hnot
      obtain ⟨rfl, hnot⟩ := (hfree σ.target).2 ⟨rfl, hnot⟩
      apply Grafted.target
      simpa only [List.map_map, Function.comp_def] using hnot
    | var hkept hsame' =>
      simp only [List.map_map, Function.comp_def] at hkept
      refine .var (fun heq => ?_) (hsame.trans links hsame')
      simp only [List.map_map, Function.comp_def]
      -- If no pair had the target, it would be free on the other side as well.
      apply Classical.byContradiction
      intro hnot
      obtain ⟨hm, hnot'⟩ := (hfree n).1 ⟨rfl, hnot⟩
      apply hnot'
      rw [hm]
      exact hkept (hm.symm.trans heq)
  | lam x body ih =>
    obtain ⟨y, body', rfl, hbody⟩ := h.lam_left
    cases hu with
    | @lam _ _ z _ body'' hbody' => exact .lam (ih ((x, y, z) :: links) hbody hbody')
  | app func arg ihf iha =>
    obtain ⟨func', arg', rfl, hfunc, harg⟩ := h.app_left
    cases hu with
    | app hfunc' harg' => exact .app (ihf links hfunc hfunc') (iha links harg harg')
  | foreign leaf =>
    rw [h.foreign_left] at hu
    cases hu
    exact .foreign leaf

theorem Yields.grafted (h : σ.Yields t r) : Grafted σ [] t r := by
  induction h with
  | var name =>
    rw [onVar]
    split
    · rename_i hname
      rw [hname]
      exact .target List.not_mem_nil
    · rename_i hname
      exact .var (fun heq => absurd heq hname) rfl
  | app _ _ ihf iha => exact .app ihf iha
  | shadowed body => exact .lam (.refl body (by simp) List.mem_cons_self)
  | entered htarget _ _ ih => exact .lam (ih.append_same htarget)
  | @exchanged binder fresh body renamed result hsame _ ih =>
    cases ih with
    | @lam _ _ y _ body' hbody => exact .lam (.of_alphaUnder [(binder, fresh, y)] hsame hbody)

/-! ### Variables -/

theorem Grafted.exists_freeAt (h : Grafted σ pairs t r) (hfree : t.FreeAt path n)
    (hkept : n = σ.target → n ∈ pairs.map Prod.fst) :
    ∃ n', SameReference pairs n n' ∧ r.FreeAt path n' := by
  induction h generalizing path n with
  | target hnot =>
    cases hfree
    exact absurd (hkept rfl) hnot
  | @var pairs n n' _ hsame =>
    cases hfree
    exact ⟨n', hsame, .var n'⟩
  | lam _ ih =>
    cases hfree with
    | body hfree hne =>
      obtain ⟨n', hsame, hfree'⟩ := ih hfree fun heq => List.mem_cons_of_mem _ (hkept heq)
      rcases hsame with ⟨heq, _⟩ | ⟨_, hne', hsame⟩
      · exact absurd heq hne
      · exact ⟨n', hsame, .body hfree' hne'⟩
  | @app pairs func arg func' arg' _ _ ihf iha =>
    cases hfree with
    | func hfree =>
      obtain ⟨n', hsame, hfree'⟩ := ihf hfree hkept
      exact ⟨n', hsame, .func hfree' arg'⟩
    | arg hfree =>
      obtain ⟨n', hsame, hfree'⟩ := iha hfree hkept
      exact ⟨n', hsame, .arg hfree' func'⟩
  | foreign leaf => cases hfree

theorem Grafted.boundAt (h : Grafted σ pairs t r) (hbound : t.BoundAt path owner) :
    r.BoundAt path owner := by
  induction h generalizing path owner with
  | target => cases hbound
  | var => cases hbound
  | @lam pairs x y body body' hbody ih =>
    cases hbound with
    | here hfree =>
      obtain ⟨n', hsame, hfree'⟩ := hbody.exists_freeAt hfree fun _ => List.mem_cons_self
      rcases hsame with ⟨_, rfl⟩ | ⟨hne, _, _⟩
      · exact .here hfree'
      · exact absurd rfl hne
    | body hbound => exact .body (ih hbound) y
  | @app pairs func arg func' arg' _ _ ihf iha =>
    cases hbound with
    | func hbound => exact .func (ihf hbound) arg'
    | arg hbound => exact .arg (iha hbound) func'
  | foreign leaf => cases hbound

end Substitution

end UntypedLambda

import UntypedLambda.Proofs.Substitution.Encoding
/-!
# Two substitutions exchanged

The substitution lemma for terms with names. The two orders rename different binders, at different
times and away from different names, so their results are only alpha-equivalent, and the equation is
not to be had by following both. They are compared in their nameless forms, where no binder is ever
renamed and the law is `Nameless.subst_subst`.

The one step that is not a substitution for the innermost name is that of the second name in the
term itself, which still stands under the first. It can be read there because the first name is not
free in what is put for the second.
-/

namespace UntypedLambda.Term

variable {t first second : Term} {x y : Name}

/-- Substitution for a name that stands in the scope behind another one, which it must not meet. -/
theorem exists_subst_behind (ht : t.WellFormed) (hsecond : second.WellFormed) (hne : x ≠ y)
    (hx : x ∉ second.free) (shadowing : Shadowing) :
    ∃ r, (t.subst y second shadowing).outcome = .ok r ∧ r.WellFormed ∧
      ∀ {scope : List Name} {T S : Nameless}, t.encodeIn (x :: y :: scope) = .ok T →
        second.encodeIn scope = .ok S →
        r.encodeIn (x :: scope) = .ok (Nameless.subst 1 (S.shift 1 0) T) := by
  obtain ⟨σ, r, hr, hwf, rfl, rfl, hyields⟩ := exists_subst_yields ht hsecond y shadowing
  refine ⟨r, hr, hwf, ?_⟩
  intro scope T S hT hS
  have hshifted : σ.replacement.encodeIn ([x] ++ scope) = .ok (S.shift 1 0) :=
    encodeIn_insert [] [x] scope hS (by simpa using hx)
  have htarget : σ.target ∉ [x] := by simpa using hne.symm
  have hcaptives : ∀ n ∈ σ.replacement.free, n ∉ [x] := by
    intro n hn hmem
    rw [List.mem_singleton.1 hmem] at hn
    exact hx hn
  exact hyields.encodeIn_eq [x] scope htarget hcaptives hT hshifted

/-- Two substitutions can be exchanged up to the choice of bound names, if the second replacement
does not have the first name free; each may treat shadowing in its own way. -/
theorem subst_exchange_alphaEq (ht : t.WellFormed) (hfirst : first.WellFormed)
    (hsecond : second.WellFormed) (hne : x ≠ y) {names : List Name}
    (hnames : second.freeVars = .ok names) (hx : x ∉ names) (s₁ s₂ s₃ s₄ s₅ : Shadowing) :
    ∃ inner left outer replaced right, (t.subst x first s₁).outcome = .ok inner ∧
      (inner.subst y second s₂).outcome = .ok left ∧
      (t.subst y second s₃).outcome = .ok outer ∧
      (first.subst y second s₄).outcome = .ok replaced ∧
      (outer.subst x replaced s₅).outcome = .ok right ∧ left.AlphaEq right := by
  obtain ⟨names', hnames', hmem⟩ := freeVars_of_plain hsecond.foreignLeaves_eq_nil
  obtain rfl := Except.ok.inj (hnames.symm.trans hnames')
  have hfree : x ∉ second.free := fun h => hx ((hmem x).2 h)
  obtain ⟨inner, hinner, hinnerwf, _, hinnerForm⟩ := exists_subst ht hfirst x s₁
  obtain ⟨left, hleft, _, _, hleftForm⟩ := exists_subst hinnerwf hsecond y s₂
  obtain ⟨outer, houter, houterwf, houterForm⟩ := exists_subst_behind ht hsecond hne hfree s₃
  obtain ⟨replaced, hreplaced, hreplacedwf, _, hreplacedForm⟩ := exists_subst hfirst hsecond y s₄
  obtain ⟨right, hright, _, _, hrightForm⟩ := exists_subst houterwf hreplacedwf x s₅
  refine ⟨inner, left, outer, replaced, right, hinner, hleft, houter, hreplaced, hright, ?_⟩
  -- A scope that names everything that is free anywhere.
  let scope := t.free ++ first.free ++ second.free
  obtain ⟨T, hT⟩ : ∃ T, t.encodeIn (x :: y :: scope) = .ok T :=
    ht.exists_encodeIn fun n hn => by simp [scope, hn]
  obtain ⟨F, hF⟩ : ∃ F, first.encodeIn (y :: scope) = .ok F :=
    hfirst.exists_encodeIn fun n hn => by simp [scope, hn]
  obtain ⟨S, hS⟩ : ∃ S, second.encodeIn scope = .ok S :=
    hsecond.exists_encodeIn fun n hn => by simp [scope, hn]
  have hleftEq : left.encodeIn scope = .ok (.subst 0 S (.subst 0 F T)) :=
    hleftForm (hinnerForm hT hF) hS
  have hrightEq : right.encodeIn scope = .ok (.subst 0 (.subst 0 S F) (.subst 1 (S.shift 1 0) T)) :=
    hrightForm (houterForm hT hS) (hreplacedForm hF hS)
  rw [← Nameless.subst_subst T (Nat.le_refl 0) F S] at hrightEq
  exact alphaUnder_of_encodeIn_eq hleftEq hrightEq

/-- A binder of the first name is renamed on one side only: the results differ. -/
theorem subst_exchange_alphaEq_shadowed :
    ∃ inner left outer replaced right,
      ((lam "z" (app (app (var "x") (var "y")) (lam "x" (var "x")))).subst "x"
        (app (var "z") (var "y")) .rename).outcome = .ok inner ∧
      (inner.subst "y" (var "z'") .stop).outcome = .ok left ∧
      ((lam "z" (app (app (var "x") (var "y")) (lam "x" (var "x")))).subst "y"
        (var "z'") .stop).outcome = .ok outer ∧
      ((app (var "z") (var "y")).subst "y" (var "z'") .rename).outcome = .ok replaced ∧
      (outer.subst "x" replaced .stop).outcome = .ok right ∧ left.AlphaEq right ∧ left ≠ right := by
  have ht : (lam "z" (app (app (var "x") (var "y")) (lam "x" (var "x")))).WellFormed := by decide
  have hfirst : (app (var "z") (var "y")).WellFormed := by decide
  have hsecond : (var "z'").WellFormed := by decide
  have hnames : (var "z'").freeVars = .ok ["z'"] := by cbv
  obtain ⟨inner, left, outer, replaced, right, hinner, hleft, houter, hreplaced, hright, halpha⟩ :=
    subst_exchange_alphaEq ht hfirst hsecond (show "x" ≠ "y" by decide) hnames (by decide)
      .rename .stop .stop .rename .stop
  refine ⟨inner, left, outer, replaced, right, hinner, hleft, houter, hreplaced, hright, halpha, ?_⟩
  intro heq
  have hsame : (inner.subst "y" (var "z'") .stop).outcome =
      (outer.subst "x" replaced .stop).outcome := by
    rw [hleft, hright, heq]
  have hinner' : inner = lam "z'" (app (app (app (var "z") (var "y")) (var "y"))
      (lam "x'" (var "x'"))) := Except.ok.inj (hinner.symm.trans (by decide +kernel))
  have houter' : outer = lam "z" (app (app (var "x") (var "z'")) (lam "x" (var "x"))) :=
    Except.ok.inj (houter.symm.trans (by decide +kernel))
  have hreplaced' : replaced = app (var "z") (var "z'") :=
    Except.ok.inj (hreplaced.symm.trans (by decide +kernel))
  rw [hinner', houter', hreplaced'] at hsame
  exact absurd hsame (by decide +kernel)

end UntypedLambda.Term

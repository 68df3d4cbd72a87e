import UntypedLambda.Proofs.Nameless.Encoding
import UntypedLambda.Proofs.Nameless.Shifting
import UntypedLambda.Proofs.Renaming
import UntypedLambda.Proofs.Substitution.Machine
/-!
# Substitution and the nameless form

Substitution on terms with names is the textbook substitution on their nameless forms, in every
context that names the free variables and with either treatment of shadowing.

What a substitution does to references is said once, by the relation `Yields`. It knows neither how
new names are found nor how shadowing is treated, only that a binder is entered when it is neither the
target nor free in the replacement, and that it may be exchanged before that. The outcome of the rules
is such a result, and what a result refers to follows by induction on the relation.
-/

namespace UntypedLambda

namespace Substitution

open Term

inductive Yields (σ : Substitution) : Term → Term → Prop
  | var (name : Name) : Yields σ (.var name) (σ.onVar name)
  | app {func arg func' arg' : Term} (hfunc : Yields σ func func') (harg : Yields σ arg arg') :
      Yields σ (.app func arg) (.app func' arg')
  | shadowed (body : Term) : Yields σ (.lam σ.target body) (.lam σ.target body)
  | entered {binder : Name} {body body' : Term} (htarget : binder ≠ σ.target)
      (hcaptive : binder ∉ σ.replacement.free) (hbody : Yields σ body body') :
      Yields σ (.lam binder body) (.lam binder body')
  | exchanged {binder fresh : Name} {body renamed result : Term}
      (hsame : AlphaUnder [(binder, fresh)] body renamed)
      (hresult : Yields σ (.lam fresh renamed) result) : Yields σ (.lam binder body) result

structure Ready (σ : Substitution) : Prop where
  wellFormed : σ.replacement.WellFormed
  mem_captives : ∀ n, n ∈ σ.captives ↔ n ∈ σ.replacement.free

/-! ### The rules come out in one of these ways -/

theorem exists_ofReplacement (target : Name) {replacement : Term} (h : replacement.WellFormed)
    (shadowing : Shadowing) :
    ∃ σ, ofReplacement target replacement shadowing = .ok σ ∧ σ.Ready ∧ σ.target = target ∧
      σ.replacement = replacement := by
  obtain ⟨names, hnames, hmem⟩ := freeVars_of_plain h.foreignLeaves_eq_nil
  refine ⟨⟨target, replacement, names, shadowing⟩, ?_, ⟨h, hmem⟩, rfl, rfl⟩
  rw [ofReplacement, hnames]
  rfl

variable {σ : Substitution}

theorem Ready.exists_refresh (hσ : σ.Ready) {binder : Name} {body : Term} (hbinder : binder ≠ "")
    (hbody : body.WellFormed) :
    ∃ fresh renamed, σ.refresh binder body = .ok (fresh, renamed) ∧ fresh ≠ "" ∧
      renamed.WellFormed ∧ fresh ≠ σ.target ∧ fresh ∉ σ.replacement.free ∧
      AlphaUnder [(binder, fresh)] body renamed := by
  obtain ⟨fresh, renamed, heq, hfresh, hrenamed, hnot, hsame⟩ :=
    Term.exists_refresh hbinder hbody (σ.captives ++ [σ.target])
  refine ⟨fresh, renamed, heq, hfresh, hrenamed, fun htarget => ?_, fun hfree => ?_, hsame⟩
  · exact hnot (List.mem_append_right _ (List.mem_singleton.2 htarget))
  · exact hnot (List.mem_append_left _ ((hσ.mem_captives fresh).2 hfree))

theorem Ready.exists_byRules (hσ : σ.Ready) {t : Term} (ht : t.WellFormed) :
    ∃ r, (σ.byRules t).outcome = .ok r ∧ r.WellFormed ∧ σ.Yields t r := by
  fun_induction byRules σ t with
  | case1 name =>
    refine ⟨σ.onVar name, rfl, ?_, .var name⟩
    rw [onVar]
    split
    · exact hσ.wellFormed
    · exact ht
  | case2 binder body hstop =>
    obtain ⟨rfl, _⟩ := stopsAt_eq_true_iff.1 hstop
    exact ⟨.lam σ.target body, rfl, ht, .shadowed body⟩
  | case3 binder body hstop hrename fresh renamed hrefresh ih =>
    obtain ⟨fresh', renamed', heq, hfresh, hwf, htarget, hcaptive, hsame⟩ :=
      hσ.exists_refresh ht.1 ht.2
    rw [hrefresh] at heq
    cases heq
    obtain ⟨r, hr, hrwf, hyields⟩ := ih hwf
    refine ⟨.lam fresh r, ?_, ⟨hfresh, hrwf⟩, .exchanged hsame (.entered htarget hcaptive hyields)⟩
    rw [Logged.outcome_bind_of_ok rfl, Logged.outcome_bind_of_ok hr, Logged.outcome_pure]
  | case4 binder body hstop hrename fault hrefresh =>
    obtain ⟨fresh, renamed, heq, _⟩ := hσ.exists_refresh ht.1 ht.2
    rw [hrefresh] at heq
    cases heq
  | case5 binder body hstop hrename ih =>
    obtain ⟨r, hr, hrwf, hyields⟩ := ih ht.2
    rw [mustRename_eq_true_iff, not_or, hσ.mem_captives] at hrename
    refine ⟨.lam binder r, ?_, ⟨ht.1, hrwf⟩, .entered hrename.1 hrename.2 hyields⟩
    rw [Logged.outcome_bind_of_ok hr, Logged.outcome_pure]
  | case6 func arg ihf iha =>
    obtain ⟨func', hfunc, hfuncwf, hfuncYields⟩ := ihf ht.1
    obtain ⟨arg', harg, hargwf, hargYields⟩ := iha ht.2
    refine ⟨.app func' arg', ?_, ⟨hfuncwf, hargwf⟩, .app hfuncYields hargYields⟩
    rw [Logged.outcome_bind_of_ok hfunc, Logged.outcome_bind_of_ok harg, Logged.outcome_pure]
  | case7 leaf => exact ht.elim

/-! ### What a result refers to -/

/-- None of the binders passed is the target or free in the replacement, so the replacement means
the same below them, shifted. -/
theorem Yields.encodeIn_eq {t r : Term} (h : σ.Yields t r) (inner outer : List Name)
    {T R : Nameless} (htarget : σ.target ∉ inner) (hcaptives : ∀ n ∈ σ.replacement.free, n ∉ inner)
    (ht : t.encodeIn (inner ++ σ.target :: outer) = .ok T)
    (hR : σ.replacement.encodeIn (inner ++ outer) = .ok R) :
    r.encodeIn (inner ++ outer) = .ok (Nameless.subst inner.length R T) := by
  induction h generalizing inner T R with
  | var name =>
    obtain ⟨i, hi, rfl⟩ := encodeIn_var_eq_ok_iff.1 ht
    by_cases hname : name = σ.target
    · rw [hname, idxOf?_append, List.idxOf?_eq_none_iff.2 htarget, List.idxOf?_cons] at hi
      obtain rfl : inner.length = i := by simpa using hi
      rw [onVar, if_pos hname, hR]
      simp [Nameless.subst]
    · obtain ⟨hne, hpos⟩ := idxOf?_remove hi hname
      rw [onVar, if_neg hname]
      refine encodeIn_var_eq_ok_iff.2 ⟨_, hpos, ?_⟩
      rw [Nameless.subst, if_neg hne]
      split <;> rfl
  | app hfunc harg ihf iha =>
    obtain ⟨F, A, hF, hA, rfl⟩ := encodeIn_app_eq_ok_iff.1 ht
    exact encodeIn_app_eq_ok_iff.2
      ⟨_, _, ihf inner htarget hcaptives hF hR, iha inner htarget hcaptives hA hR, rfl⟩
  | shadowed body =>
    obtain ⟨B, hB, rfl⟩ := encodeIn_lam_eq_ok_iff.1 ht
    -- The scope names the target twice; the binder hides the outer place, so it can be taken out.
    obtain ⟨hplain, hfree⟩ := exists_encodeIn_iff.1 ⟨B, hB⟩
    obtain ⟨B', hB'⟩ : ∃ B', body.encodeIn ((σ.target :: inner) ++ outer) = .ok B' := by
      refine exists_encodeIn_iff.2 ⟨hplain, fun n hn => ?_⟩
      have hmem := hfree n hn
      simp only [List.mem_cons, List.mem_append, List.cons_append] at hmem ⊢
      grind
    have hinsert := encodeIn_insert (σ.target :: inner) [σ.target] outer hB' (by simp)
    rw [List.cons_append, List.singleton_append, hB] at hinsert
    cases hinsert
    refine encodeIn_lam_eq_ok_iff.2 ⟨B', hB', ?_⟩
    exact congrArg Nameless.lam (Nameless.subst_shift_self B' (inner.length + 1) _)
  | @entered binder body body' hbinder hcaptive hbody ih =>
    obtain ⟨B, hB, rfl⟩ := encodeIn_lam_eq_ok_iff.1 ht
    have hR' : σ.replacement.encodeIn ((binder :: inner) ++ outer) = .ok (R.shift 1 0) :=
      encodeIn_insert [] [binder] (inner ++ outer) hR (by simpa using hcaptive)
    have htarget' : σ.target ∉ binder :: inner := by
      rw [List.mem_cons, not_or]
      exact ⟨hbinder.symm, htarget⟩
    have hcaptives' : ∀ n ∈ σ.replacement.free, n ∉ binder :: inner := by
      intro n hn
      rw [List.mem_cons, not_or]
      exact ⟨fun heq => hcaptive (heq ▸ hn), hcaptives n hn⟩
    exact encodeIn_lam_eq_ok_iff.2 ⟨_, ih _ htarget' hcaptives' hB hR', rfl⟩
  | exchanged hsame hresult ih =>
    obtain ⟨B, hB, rfl⟩ := encodeIn_lam_eq_ok_iff.1 ht
    exact ih inner htarget hcaptives (encodeIn_lam_eq_ok_iff.2 ⟨B, hsame.encodeIn_eq hB, rfl⟩) hR

theorem Yields.mem_free_iff {t r : Term} (h : σ.Yields t r) (n : Name) :
    n ∈ r.free ↔
      (n ∈ t.free ∧ n ≠ σ.target) ∨ (σ.target ∈ t.free ∧ n ∈ σ.replacement.free) := by
  induction h with
  | var name =>
    rw [onVar]
    split <;> grind [mem_free_var]
  | app hfunc harg ihf iha =>
    rw [mem_free_app, mem_free_app, mem_free_app, ihf, iha]
    grind
  | shadowed body =>
    rw [mem_free_lam, mem_free_lam]
    grind
  | @entered binder body body' hbinder hcaptive hbody ih =>
    have hne : n ∈ σ.replacement.free → n ≠ binder := fun hn heq => hcaptive (heq ▸ hn)
    rw [mem_free_lam, mem_free_lam, mem_free_lam, ih]
    grind
  | @exchanged binder fresh body renamed result hsame hresult ih =>
    have hfree : ∀ m, m ∈ (Term.lam binder body).free ↔ m ∈ (Term.lam fresh renamed).free := by
      intro m
      simpa using hsame.mem_free_iff m
    rw [ih, hfree, hfree]

end Substitution

namespace Term

theorem exists_subst_yields {t replacement : Term} (ht : t.WellFormed)
    (hreplacement : replacement.WellFormed) (target : Name) (shadowing : Shadowing) :
    ∃ (σ : Substitution) (r : Term), (t.subst target replacement shadowing).outcome = .ok r ∧
      r.WellFormed ∧ σ.target = target ∧ σ.replacement = replacement ∧ σ.Yields t r := by
  obtain ⟨σ, hσ, hready, htarget, hreplaced⟩ :=
    Substitution.exists_ofReplacement target hreplacement shadowing
  obtain ⟨r, hr, hwf, hyields⟩ := hready.exists_byRules ht
  refine ⟨σ, r, ?_, hwf, htarget, hreplaced, hyields⟩
  rw [subst, hσ, Logged.outcome_bind_of_ok rfl, Substitution.State.run_start, hr]

/-- What the rest of the theory knows of substitution on well-formed terms. -/
theorem exists_subst {t replacement : Term} (ht : t.WellFormed)
    (hreplacement : replacement.WellFormed) (target : Name) (shadowing : Shadowing) :
    ∃ r, (t.subst target replacement shadowing).outcome = .ok r ∧ r.WellFormed ∧
      (∀ n, n ∈ r.free ↔
        (n ∈ t.free ∧ n ≠ target) ∨ (target ∈ t.free ∧ n ∈ replacement.free)) ∧
      ∀ {scope : List Name} {T R : Nameless}, t.encodeIn (target :: scope) = .ok T →
        replacement.encodeIn scope = .ok R → r.encodeIn scope = .ok (Nameless.subst 0 R T) := by
  obtain ⟨σ, r, hr, hwf, rfl, rfl, hyields⟩ :=
    exists_subst_yields ht hreplacement target shadowing
  refine ⟨r, hr, hwf, hyields.mem_free_iff, fun hT hR => ?_⟩
  exact hyields.encodeIn_eq [] _ (by simp) (by simp) hT hR

/-- Substitution on terms with names is substitution on their nameless forms, in any context, and
captures no free name of the replacement. -/
theorem encode_subst {t replacement : Term} (ht : t.WellFormed)
    (hreplacement : replacement.WellFormed) (target : Name) (shadowing : Shadowing)
    {context : List Name} (hfree : ∀ n ∈ t.free, n ≠ target → n ∈ context)
    (hreplacementFree : ∀ n ∈ replacement.free, n ∈ context) :
    ∃ r T R, (t.subst target replacement shadowing).outcome = .ok r ∧
      t.encode (context ++ [target]) = .ok T ∧ replacement.encode context = .ok R ∧
      r.encode context = .ok (Nameless.subst 0 R T) ∧
      (target ∈ t.free → ∀ n ∈ replacement.free, n ∈ r.free) ∧
      (target ∉ t.free → r.encode context = t.encode context) := by
  obtain ⟨r, hr, _, hrfree, hresult⟩ := exists_subst ht hreplacement target shadowing
  obtain ⟨T, hT⟩ : ∃ T, t.encodeIn (target :: context.reverse) = .ok T := by
    apply ht.exists_encodeIn
    intro n hn
    rw [List.mem_cons, List.mem_reverse]
    exact (Classical.em (n = target)).imp_right (hfree n hn)
  obtain ⟨R, hR⟩ := hreplacement.exists_encode hreplacementFree
  refine ⟨r, T, R, hr, ?_, hR, hresult hT hR, fun htarget n hn => ?_, fun htarget => ?_⟩
  · rw [encode, List.reverse_append]
    exact hT
  · exact (hrfree n).2 (.inr ⟨htarget, hn⟩)
  · -- The index of the target is then one that nothing refers to.
    obtain ⟨T', hT'⟩ : ∃ T', t.encode context = .ok T' := by
      apply ht.exists_encode
      intro n hn
      exact hfree n hn fun heq => htarget (heq ▸ hn)
    have hinsert := encodeIn_insert [] [target] context.reverse hT' (by simpa using htarget)
    rw [List.nil_append, List.singleton_append, hT] at hinsert
    cases hinsert
    rw [hT', encode, hresult hT hR]
    exact congrArg Except.ok (Nameless.subst_shift_self T' 0 R)

/-- Both binders would capture, and the first name that is tried for them would as well. -/
theorem encode_subst_two_binders :
    ∃ r, ((lam "y" (app (var "x") (lam "y" (app (var "y") (var "x"))))).subst "x"
        (app (var "y") (var "y'")) .rename).outcome = .ok r ∧
      r.encode ["y", "x", "y'", "y"] =
        .ok (.lam (.app (.app (.var 1) (.var 2))
          (.lam (.app (.var 0) (.app (.var 2) (.var 3)))))) := by
  have ht : (lam "y" (app (var "x") (lam "y" (app (var "y") (var "x"))))).WellFormed := by decide
  have hreplacement : (app (var "y") (var "y'")).WellFormed := by decide
  obtain ⟨r, T, R, hr, hT, hR, hencode, _⟩ := encode_subst ht hreplacement "x" .rename
    (show ∀ n ∈ _, n ≠ "x" → n ∈ ["y", "x", "y'", "y"] by decide) (by decide)
  cases hT
  cases hR
  exact ⟨r, hr, hencode⟩

end Term

end UntypedLambda

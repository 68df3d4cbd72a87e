import UntypedLambda.Proofs.Strategy.Run
/-!
# The leftmost innermost redex

The full policy takes the first redex in postorder. The order alone shows that the redex is an innermost
one: a redex inside its function or its argument would come before it.

Together with the normal policy this makes two policies that overlook nothing. Where one of them ends
a run, no policy has anything left to do. Call by value may still fail to see that there is nothing,
if a text or a number stands where it asks for a value.
-/

namespace UntypedLambda

namespace Term

variable {t : Term} {path : Path}

theorem FirstRedexAt.not_hasRedexAt_below (h : t.FirstRedexAt Path.FinishesBefore path) (edge : Edge)
    (rest : Path) : ¬ t.HasRedexAt (path ++ edge :: rest) := by
  rintro ⟨inner, hbelow⟩
  obtain ⟨redex, hfirst⟩ := h
  have hfinishes := Path.finishesBefore_of_below path edge rest
  rcases hfirst.2 _ inner hbelow with heq | hafter
  · rw [heq] at hfinishes
    exact asymm hfinishes hfinishes
  · exact asymm hfinishes hafter

theorem FirstRedexAt.exists_sides (h : t.FirstRedexAt Path.FinishesBefore path) :
    ∃ func arg, t.subterm path = .ok (app func arg) ∧ func.isValue = true ∧ func.IsNormal ∧
      arg.IsNormal := by
  obtain ⟨redex, hsubterm, hredex⟩ := h.hasRedexAt
  obtain ⟨binder, body, arg, rfl⟩ := eq_app_lam_of_isRedex hredex
  have hbelow : ∀ edge rest part, (app (lam binder body) arg).child edge = .ok part →
      ¬ part.HasRedexAt rest := by
    rintro edge rest part hpart ⟨inner, hinner, hinnerRedex⟩
    apply h.not_hasRedexAt_below edge rest
    refine ⟨inner, ?_, hinnerRedex⟩
    rw [subterm_append, hsubterm]
    show (app (lam binder body) arg).subterm (edge :: rest) = .ok inner
    rw [subterm, hpart]
    exact hinner
  refine ⟨lam binder body, arg, hsubterm, rfl, ?_, ?_⟩
  · exact isNormal_iff.2 fun rest => hbelow .func rest _ rfl
  · exact isNormal_iff.2 fun rest => hbelow .arg rest _ rfl

theorem IsNormal.locate_ne_some (h : t.IsNormal) (policy : Policy) (path : Path) :
    policy.locate t ≠ .ok (some path) := by
  intro hpath
  exact h.not_hasRedexAt path (Policy.hasRedexAt_of_locate hpath)

end Term

open Term

/-- The full policy takes the first redex in postorder, one with no other inside; where it finds
none, or normal or full evaluation has ended, no policy finds any. -/
theorem Policy.full_locates_innermost_redex (t : Term) :
    (Policy.full.locate t = .ok none ↔ ∀ path, ¬ t.HasRedexAt path) ∧
    (Policy.full.locate t = .ok none ↔ Policy.normal.locate t = .ok none) ∧
    (Policy.full.locate t = .ok none → ∀ policy : Policy,
      (∀ path, policy.locate t ≠ .ok (some path)) ∧
      (policy ≠ .callByValue ∨ t.Proper → policy.locate t = .ok none)) ∧
    (∀ (S : Strategy) (fuel : Nat) (r : Term), S.policy = .normal ∨ S.policy = .full →
      (S.evaluate fuel t).outcome = .ok (some r) → ∀ S' : Strategy,
      (∀ path, S'.locate r ≠ .ok (some path)) ∧
      (S'.policy ≠ .callByValue ∨ t.Proper →
        S'.locate r = .ok none ∧ (S'.step r).outcome = .ok none ∧ S'.EndsAfter 0 r r)) ∧
    (∀ path, Policy.full.locate t = .ok (some path) ↔ t.FirstRedexAt Path.FinishesBefore path) ∧
    ∀ path, Policy.full.locate t = .ok (some path) → ∃ func arg,
      t.subterm path = .ok (.app func arg) ∧ func.isValue = true ∧
      (∀ inner, ¬ func.HasRedexAt inner) ∧ ∀ inner, ¬ arg.HasRedexAt inner := by
  refine ⟨full_locate_eq_none_iff.trans isNormal_iff,
    full_locate_eq_none_iff.trans normal_locate_eq_none_iff.symm, ?_, ?_,
    fun path => full_locate_eq_some_iff, ?_⟩
  · intro h policy
    have hfound := (full_locate_eq_none_iff.1 h).locate_ne_some policy
    exact ⟨hfound, fun hask => policy.locate_eq_none hask hfound⟩
  · intro S fuel r hpolicy hr S'
    obtain ⟨_, _, hreaches, hhalts⟩ := Strategy.evaluateFrom_eq_some_iff.1 hr
    have hfound := (Strategy.isNormal_of_halts hhalts hpolicy).locate_ne_some S'.policy
    refine ⟨hfound, ?_⟩
    intro hask
    have hlocate : S'.locate r = .ok none :=
      S'.policy.locate_eq_none (hask.imp_right hreaches.proper) hfound
    have hstop : S'.Halts r := Strategy.halts_iff_locate_eq_none.2 hlocate
    exact ⟨hlocate, hstop, Strategy.endsAfter_iff.2 ⟨.refl r, hstop⟩⟩
  · intro path h
    obtain ⟨func, arg, hsubterm, hvalue, hfunc, harg⟩ := (full_locate_eq_some_iff.1 h).exists_sides
    exact ⟨func, arg, hsubterm, hvalue, hfunc.not_hasRedexAt, harg.not_hasRedexAt⟩

/-- The argument of a redex holds a redex under a binder, which comes first; after it and the outer one
nothing is left to any strategy. -/
theorem Policy.full_locates_innermost_redex_under_binder :
    (Term.app (.lam "x" (.var "x"))
      (.lam "y" (.app (.lam "z" (.var "z")) (.var "y")))).FirstRedexAt Path.FinishesBefore
        [.arg, .body] ∧
    ∀ S : Strategy, S.locate (.lam "y" (.var "y")) = .ok none ∧
      (S.step (.lam "y" (.var "y"))).outcome = .ok none ∧
      S.EndsAfter 0 (.lam "y" (.var "y")) (.lam "y" (.var "y")) := by
  have hlocate : Policy.full.locate (.app (.lam "x" (.var "x"))
      (.lam "y" (.app (.lam "z" (.var "z")) (.var "y")))) = .ok (some [.arg, .body]) := by cbv
  have hevaluate : ((⟨.full, .stop⟩ : Strategy).evaluate 3 (.app (.lam "x" (.var "x"))
      (.lam "y" (.app (.lam "z" (.var "z")) (.var "y"))))).outcome =
        .ok (some (.lam "y" (.var "y"))) := by decide +kernel
  obtain ⟨_, _, _, hfixed, hfirst, _⟩ := Policy.full_locates_innermost_redex
    (.app (.lam "x" (.var "x")) (.lam "y" (.app (.lam "z" (.var "z")) (.var "y"))))
  refine ⟨(hfirst [.arg, .body]).1 hlocate, ?_⟩
  intro S
  exact (hfixed ⟨.full, .stop⟩ 3 _ (.inr rfl) hevaluate S).2 (.inr (by decide))

end UntypedLambda

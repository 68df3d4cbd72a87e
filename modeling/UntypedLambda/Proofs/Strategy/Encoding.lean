import UntypedLambda.Proofs.Strategy.Run
/-!
# Steps on nameless forms

Every step of a well-formed term is one contraction of the nameless form, at the path that was located.
Along a run no name becomes free that was not free before, so the context of the first term serves for
all of them.
-/

namespace UntypedLambda.Strategy

open Term

/-- A step contracts the nameless form at the located path and changes nothing else, and the context of
a term serves for all terms of its traces. -/
theorem encode_step (S : Strategy) {t : Term} (ht : t.WellFormed) {context : List Name}
    (hfree : ∀ n ∈ t.free, n ∈ context) :
    (∃ next, (S.step t).outcome = .ok next ∧ (next = none ↔ S.locate t = .ok none)) ∧
    (∀ t', (S.step t).outcome = .ok (some t') → ∃ path T T', S.locate t = .ok (some path) ∧
      t.encode context = .ok T ∧ t'.encode context = .ok T' ∧ T.contractAt? path = some T') ∧
    ∀ count, ∃ terms, S.Begins t count terms ∧
      (Trace.take S count (.start t)).outcome = .ok terms ∧
      (terms.Pairwise fun u v => ∀ n ∈ v.free, n ∈ u.free) ∧
      ∀ u ∈ terms, ∃ U, u.encode context = .ok U := by
  refine ⟨?_, ?_, ?_⟩
  · rcases S.step_cases ht with ⟨hlocate, hstep⟩ | ⟨path, t', hlocate, _, hstep⟩
    · exact ⟨none, hstep, by simp [hlocate]⟩
    · exact ⟨some t', hstep, by simp [hlocate]⟩
  · intro t' hstep
    obtain ⟨path, hlocate, hcontracts⟩ := outcome_step_eq_some_iff.1 hstep
    obtain ⟨T, hT⟩ := ht.exists_encode hfree
    obtain ⟨T', hT', hcontract⟩ := hcontracts.encodeIn_eq ht hT
    exact ⟨path, T, T', hlocate, hT, hT', Nameless.contractsAt_iff_contractAt?.1 hcontract⟩
  · intro count
    obtain ⟨terms, hbegins, hterms⟩ := Trace.exists_take_of_wellFormed S ht count
    refine ⟨terms, hbegins, hterms, ?_, ?_⟩
    · apply hbegins.pairwise
      intro i k u v hu hv n hn
      exact hv.mem_free (hu.wellFormed ht) hn
    · intro u hu
      obtain ⟨i, hreaches⟩ := hbegins.exists_reaches hu
      exact (hreaches.wellFormed ht).exists_encode fun n hn => hfree n (hreaches.mem_free ht hn)

/-- The binder that is left has to give way to the free name that is put below it. -/
theorem encode_step_const :
    ∃ t', ((⟨.normal, .stop⟩ : Strategy).step
        (.app (.lam "x" (.lam "y" (.var "x"))) (.var "y"))).outcome = .ok (some t') ∧
      t'.encode ["y"] = .ok (.lam (.var 1)) := by
  have ht : (Term.app (.lam "x" (.lam "y" (.var "x"))) (.var "y")).WellFormed := by decide
  have hlocate : (⟨.normal, .stop⟩ : Strategy).locate
      (.app (.lam "x" (.lam "y" (.var "x"))) (.var "y")) = .ok (some []) := by cbv
  obtain ⟨⟨next, hnext, hhalts⟩, hsteps, _⟩ :=
    encode_step ⟨.normal, .stop⟩ ht (show ∀ n ∈ _, n ∈ ["y"] by decide)
  cases next with
  | none => cases hlocate.symm.trans (hhalts.1 rfl)
  | some t' =>
    obtain ⟨path, T, T', hpath, hT, hT', hcontract⟩ := hsteps t' hnext
    cases hlocate.symm.trans hpath
    cases hT
    cases hcontract
    exact ⟨t', hnext, hT'⟩

end UntypedLambda.Strategy

import UntypedLambda.Strategy.Basic
/-!
# Runs

The run of a strategy from a term, as a relation: which term is reached after so many steps, and
where the run ends.
-/

namespace UntypedLambda.Strategy

inductive Reaches (S : Strategy) : Nat → Term → Term → Prop
  | refl (t : Term) : Reaches S 0 t t
  | head {steps : Nat} {t u v : Term} (first : (S.step t).outcome = .ok (some u))
      (rest : Reaches S steps u v) : Reaches S (steps + 1) t v

def Halts (S : Strategy) (t : Term) : Prop :=
  (S.step t).outcome = .ok none

theorem halts_iff_locate_eq_none {S : Strategy} {t : Term} :
    S.Halts t ↔ S.locate t = .ok none := by
  rw [Halts, outcome_step, bind_eq_ok_iff]
  constructor
  · rintro ⟨found, hlocate, h⟩
    cases found with
    | none => exact hlocate
    | some path =>
      obtain ⟨redex, _, h⟩ := bind_eq_ok_iff.1 h
      obtain ⟨contractum, _, h⟩ := bind_eq_ok_iff.1 h
      obtain ⟨reduct, _, h⟩ := bind_eq_ok_iff.1 h
      cases h
  · intro hlocate
    exact ⟨none, hlocate, rfl⟩

end UntypedLambda.Strategy

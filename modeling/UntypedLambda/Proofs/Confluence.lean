import UntypedLambda.Proofs.Nameless.Confluence
import UntypedLambda.Proofs.Strategy.Run
/-!
# Confluence

Reduction of well-formed terms is confluent up to the choice of bound names. Under a scope that names
the free variables every contraction of a term is one of its nameless form, and every contraction of
the nameless form is that of some term, so sequences of contractions pass to nameless terms and back.
There they meet, and terms with one nameless form are alpha-equivalent.
-/

namespace UntypedLambda

namespace Term

open Relation

/-- Terms whose reducts meet, up to the choice of bound names. -/
def Joinable (u v : Term) : Prop :=
  ∃ w₁ w₂, u.Reduces w₁ ∧ v.Reduces w₂ ∧ w₁.AlphaEq w₂

variable {t u v : Term} {scope : List Name} {T U : Nameless}

/-! ### To nameless terms and back -/

theorem Contracts.encodeIn_eq (h : t.Contracts u) (ht : t.WellFormed)
    (hT : t.encodeIn scope = .ok T) :
    u.WellFormed ∧ ∃ U, u.encodeIn scope = .ok U ∧ T.Contracts U := by
  obtain ⟨path, shadowing, hpath⟩ := contracts_iff.1 h
  obtain ⟨U, hU, hcontracts⟩ := hpath.encodeIn_eq ht hT
  exact ⟨hpath.wellFormed ht, U, hU, path, hcontracts⟩

theorem Reduces.encodeIn_eq (h : t.Reduces u) (ht : t.WellFormed)
    (hT : t.encodeIn scope = .ok T) :
    u.WellFormed ∧ ∃ U, u.encodeIn scope = .ok U ∧ ReflTransGen Nameless.Contracts T U := by
  induction h generalizing T with
  | refl t => exact ⟨ht, T, hT, .refl⟩
  | head first _ ih =>
    obtain ⟨hwf, M, hM, hfirst⟩ := first.encodeIn_eq ht hT
    obtain ⟨hwf', U, hU, hrest⟩ := ih hwf hM
    exact ⟨hwf', U, hU, .head hfirst hrest⟩

theorem exists_contracts_of_encodeIn (h : T.Contracts U) (ht : t.WellFormed)
    (hT : t.encodeIn scope = .ok T) :
    ∃ u, t.Contracts u ∧ u.WellFormed ∧ u.encodeIn scope = .ok U := by
  obtain ⟨path, hpath⟩ := h
  have hredex : t.HasRedexAt path := hasRedexAt_of_encodeIn hpath hT
  -- Either treatment of shadowing gives a term with the nameless form that is wanted.
  obtain ⟨u, hu, hwf⟩ := hredex.exists_contractsAt ht .stop
  obtain ⟨U', hU', hpath'⟩ := hu.encodeIn_eq ht hT
  rw [hpath'.unique hpath] at hU'
  exact ⟨u, contracts_iff.2 ⟨path, .stop, hu⟩, hwf, hU'⟩

theorem exists_reduces_of_encodeIn (h : ReflTransGen Nameless.Contracts T U) (ht : t.WellFormed)
    (hT : t.encodeIn scope = .ok T) : ∃ u, t.Reduces u ∧ u.encodeIn scope = .ok U := by
  induction h using ReflTransGen.head_induction_on generalizing t with
  | refl => exact ⟨t, .refl t, hT⟩
  | head first _ ih =>
    obtain ⟨s, hs, hwf, hS⟩ := exists_contracts_of_encodeIn first ht hT
    obtain ⟨u, hu, hU⟩ := ih hwf hS
    exact ⟨u, .head hs hu, hU⟩

/-! ### Meeting again -/

theorem joinable_of_reduces (ht : t.WellFormed) (hu : t.Reduces u) (hv : t.Reduces v) :
    u.Joinable v := by
  obtain ⟨T, hT⟩ := ht.exists_encodeIn fun _ => id
  obtain ⟨hwfu, U, hU, hTU⟩ := hu.encodeIn_eq ht hT
  obtain ⟨hwfv, V, hV, hTV⟩ := hv.encodeIn_eq ht hT
  obtain ⟨W, hUW, hVW⟩ := Nameless.confluent hTU hTV
  obtain ⟨w₁, huw, hw₁⟩ := exists_reduces_of_encodeIn hUW hwfu hU
  obtain ⟨w₂, hvw, hw₂⟩ := exists_reduces_of_encodeIn hVW hwfv hV
  exact ⟨w₁, w₂, huw, hvw, alphaUnder_of_encodeIn_eq hw₁ hw₂⟩

theorem IsNormal.eq_of_reduces (h : t.IsNormal) (hu : t.Reduces u) : u = t := by
  cases hu with
  | refl => rfl
  | head first _ =>
    obtain ⟨path, shadowing, hpath⟩ := contracts_iff.1 first
    exact absurd hpath.hasRedexAt (h.not_hasRedexAt path)

/-- A term has at most one normal form, up to the choice of bound names. -/
theorem IsNormal.alphaEq_of_joinable (hu : u.IsNormal) (hv : v.IsNormal) (h : u.Joinable v) :
    u.AlphaEq v := by
  obtain ⟨w₁, w₂, hw₁, hw₂, halpha⟩ := h
  rw [hu.eq_of_reduces hw₁, hv.eq_of_reduces hw₂] at halpha
  exact halpha

end Term

open Term

/-- Reduction is confluent up to the choice of bound names: the terms of any two traces meet again, and
the answers of the normal and the full strategy agree. -/
theorem Term.reduces_confluent {t : Term} (ht : t.WellFormed) :
    (∀ u v, t.Reduces u → t.Reduces v → u.Joinable v) ∧
    (∀ (S₁ S₂ : Strategy) (count₁ count₂ : Nat), ∃ us vs,
      S₁.Begins t count₁ us ∧ (Trace.take S₁ count₁ (.start t)).outcome = .ok us ∧
      S₂.Begins t count₂ vs ∧ (Trace.take S₂ count₂ (.start t)).outcome = .ok vs ∧
      ∀ u ∈ us, ∀ v ∈ vs, u.Joinable v) ∧
    ∀ (mode₁ mode₂ : Shadowing) (fuel₁ fuel₂ : Nat) (r s : Term),
      ((⟨.normal, mode₁⟩ : Strategy).evaluate fuel₁ t).outcome = .ok (some r) →
      ((⟨.full, mode₂⟩ : Strategy).evaluate fuel₂ t).outcome = .ok (some s) → r.AlphaEq s := by
  refine ⟨fun u v => joinable_of_reduces ht, ?_, ?_⟩
  · intro S₁ S₂ count₁ count₂
    obtain ⟨us, hleft, hus⟩ := Trace.exists_take_of_wellFormed S₁ ht count₁
    obtain ⟨vs, hright, hvs⟩ := Trace.exists_take_of_wellFormed S₂ ht count₂
    refine ⟨us, vs, hleft, hus, hright, hvs, ?_⟩
    intro u hu v hv
    obtain ⟨_, hreachesu⟩ := hleft.exists_reaches hu
    obtain ⟨_, hreachesv⟩ := hright.exists_reaches hv
    exact joinable_of_reduces ht hreachesu.reduces hreachesv.reduces
  · intro mode₁ mode₂ fuel₁ fuel₂ r s hr hs
    obtain ⟨_, _, hreachesr, hhaltsr⟩ := Strategy.evaluateFrom_eq_some_iff.1 hr
    obtain ⟨_, _, hreachess, hhaltss⟩ := Strategy.evaluateFrom_eq_some_iff.1 hs
    have hnormalr : r.IsNormal := Strategy.isNormal_of_halts hhaltsr (.inl rfl)
    have hnormals : s.IsNormal := Strategy.isNormal_of_halts hhaltss (.inr rfl)
    exact hnormalr.alphaEq_of_joinable hnormals
      (joinable_of_reduces ht hreachesr.reduces hreachess.reduces)

/-- The argument is contracted after it was put in, below a binder that had to give way, or before. -/
theorem Term.reduces_confluent_const :
    (Trace.take ⟨.normal, .stop⟩ 2 (.start (.app (.lam "x" (.lam "y" (.var "x")))
        (.app (.lam "z" (.var "z")) (.var "y"))))).outcome =
      .ok [.app (.lam "x" (.lam "y" (.var "x"))) (.app (.lam "z" (.var "z")) (.var "y")),
        .lam "y'" (.app (.lam "z" (.var "z")) (.var "y"))] ∧
    (Trace.take ⟨.full, .rename⟩ 2 (.start (.app (.lam "x" (.lam "y" (.var "x")))
        (.app (.lam "z" (.var "z")) (.var "y"))))).outcome =
      .ok [.app (.lam "x" (.lam "y" (.var "x"))) (.app (.lam "z" (.var "z")) (.var "y")),
        .app (.lam "x" (.lam "y" (.var "x"))) (.var "y")] ∧
    (Term.lam "y'" (.app (.lam "z" (.var "z")) (.var "y"))).Joinable
      (.app (.lam "x" (.lam "y" (.var "x"))) (.var "y")) := by
  have ht : (Term.app (.lam "x" (.lam "y" (.var "x")))
      (.app (.lam "z" (.var "z")) (.var "y"))).WellFormed := by decide
  obtain ⟨us, vs, _, hus, _, hvs, hmeet⟩ :=
    (Term.reduces_confluent ht).2.1 ⟨.normal, .stop⟩ ⟨.full, .rename⟩ 2 2
  have hleft : (Trace.take ⟨.normal, .stop⟩ 2 (.start (.app (.lam "x" (.lam "y" (.var "x")))
      (.app (.lam "z" (.var "z")) (.var "y"))))).outcome =
      .ok [.app (.lam "x" (.lam "y" (.var "x"))) (.app (.lam "z" (.var "z")) (.var "y")),
        .lam "y'" (.app (.lam "z" (.var "z")) (.var "y"))] := by decide +kernel
  have hright : (Trace.take ⟨.full, .rename⟩ 2 (.start (.app (.lam "x" (.lam "y" (.var "x")))
      (.app (.lam "z" (.var "z")) (.var "y"))))).outcome =
      .ok [.app (.lam "x" (.lam "y" (.var "x"))) (.app (.lam "z" (.var "z")) (.var "y")),
        .app (.lam "x" (.lam "y" (.var "x"))) (.var "y")] := by decide +kernel
  cases hus.symm.trans hleft
  cases hvs.symm.trans hright
  exact ⟨hus, hvs, hmeet _ (by simp) _ (by simp)⟩

end UntypedLambda

import UntypedLambda.Proofs.Strategy.Run
import UntypedLambda.Term.Spine
/-!
# Lazy runs begin normal runs

The lazy policy finds a redex exactly where a term is an abstraction applied to arguments, namely the
application of the head to the first of them. Everything above that redex is an application whose
function is no abstraction, so the normal policy comes to it first as well. As long as the lazy run
goes on, the two runs are therefore one, and a normal run that ends has passed the term at which the
lazy run ends.
-/

namespace UntypedLambda

namespace Locate

open Term

theorem lazy_eq_some_iff_unapply (depth : Nat) (t : Term) (path : Path) :
    lazy depth t = some path ↔ t.unapply.1.isValue = true ∧ t.unapply.2 ≠ [] ∧
      path = List.replicate (depth + (t.unapply.2.length - 1)) .func := by
  induction t generalizing depth with
  | app func arg ihf iha =>
    rw [lazy, unapply_app]
    by_cases hargs : func.unapply.2 = []
    · -- The function is the head itself.
      rw [hargs, unapply_fst_of_snd_eq_nil hargs]
      cases hvalue : func.isValue with
      | true => simp [eq_comm]
      | false =>
        have hnone : lazy (depth + 1) func ≠ some path := by
          rw [ne_eq, ihf, hargs]
          simp
        simpa using hnone
    · have hvalue : func.isValue = false := by
        cases func with
        | lam binder body => exact absurd rfl hargs
        | _ => rfl
      have hlength := List.length_pos_iff.2 hargs
      rw [hvalue, if_neg Bool.false_ne_true, ihf, List.length_append, List.length_singleton,
        show depth + 1 + (func.unapply.2.length - 1) =
          depth + (func.unapply.2.length + 1 - 1) by omega]
      simp [hargs]
  | lam binder body ih => simp [lazy, unapply, unapplyOnto]
  | var name => simp [lazy, unapply, unapplyOnto, isValue]
  | foreign leaf => simp [lazy, unapply, unapplyOnto, isValue]

end Locate

namespace Strategy

variable {S : Strategy} {t u s r : Term} {n : Nat}

/-! ### One step of both -/

variable {mode : Shadowing}

theorem lazy_halts_or_step_eq (mode : Shadowing) (t : Term) :
    (⟨.lazy, mode⟩ : Strategy).Halts t ∨
      ((⟨.lazy, mode⟩ : Strategy).step t).outcome =
        ((⟨.normal, mode⟩ : Strategy).step t).outcome := by
  cases hfound : Locate.lazy 0 t with
  | none => exact .inl (halts_iff_locate_eq_none.2 (congrArg Except.ok hfound))
  | some path =>
    have hlazy : Policy.lazy.locate t = .ok (some path) := congrArg Except.ok hfound
    exact .inr (outcome_step_eq (hlazy.trans (Policy.normal_locate_of_lazy hlazy).symm) rfl)

theorem normal_step_of_lazy (h : ((⟨.lazy, mode⟩ : Strategy).step t).outcome = .ok (some u)) :
    ((⟨.normal, mode⟩ : Strategy).step t).outcome = .ok (some u) := by
  rcases lazy_halts_or_step_eq mode t with hhalts | hsame
  · rw [Halts, h] at hhalts
    cases hhalts
  · rw [← hsame]
    exact h

theorem lazy_halts_of_normal (h : (⟨.normal, mode⟩ : Strategy).Halts t) :
    (⟨.lazy, mode⟩ : Strategy).Halts t := by
  rcases lazy_halts_or_step_eq mode t with hhalts | hsame
  · exact hhalts
  · exact hsame.trans h

/-! ### Whole runs -/

theorem Reaches.normal_of_lazy (h : (⟨.lazy, mode⟩ : Strategy).Reaches n t s) :
    (⟨.normal, mode⟩ : Strategy).Reaches n t s := by
  induction h with
  | refl t => exact .refl t
  | head first _ ih => exact .head (normal_step_of_lazy first) ih

/-- A normal run that ends is a lazy run that ends, followed by the rest of the normal run. -/
theorem Reaches.exists_lazy_end (h : (⟨.normal, mode⟩ : Strategy).Reaches n t r)
    (hhalts : (⟨.normal, mode⟩ : Strategy).Halts r) :
    ∃ m ≤ n, ∃ w, (⟨.lazy, mode⟩ : Strategy).Reaches m t w ∧ (⟨.lazy, mode⟩ : Strategy).Halts w ∧
      (⟨.normal, mode⟩ : Strategy).Reaches (n - m) w r := by
  induction h with
  | refl t => exact ⟨0, Nat.le_refl 0, t, .refl t, lazy_halts_of_normal hhalts, .refl t⟩
  | @head n t u r first rest ih =>
    rcases lazy_halts_or_step_eq mode t with hlazy | hsame
    · exact ⟨0, Nat.zero_le _, t, .refl t, hlazy, .head first rest⟩
    · obtain ⟨m, hm, w, hreaches, hlazy, hrest⟩ := ih hhalts
      refine ⟨m + 1, Nat.succ_le_succ hm, w, .head (hsame.trans first) hreaches, hlazy, ?_⟩
      rw [Nat.add_sub_add_right]
      exact hrest

end Strategy

theorem Trace.exists_take_of_lazy {mode : Shadowing} {t s : Term} {n : Nat}
    (h : (⟨.lazy, mode⟩ : Strategy).Reaches n t s) :
    ∃ terms, terms.length = n + 1 ∧ terms[n]? = some s ∧
      (take ⟨.lazy, mode⟩ (n + 1) (.start t)).outcome = .ok terms ∧
      (take ⟨.normal, mode⟩ (n + 1) (.start t)).outcome = .ok terms := by
  obtain ⟨terms, hlazy, hlength, hterms⟩ := exists_take_of_reaches h
  obtain ⟨terms', hnormal, hlength', hterms'⟩ := exists_take_of_reaches h.normal_of_lazy
  have hsame : terms' = terms := by
    apply List.ext_getElem (hlength'.trans hlength.symm)
    intro i hi' hi
    exact (hnormal.reaches hi').unique (hlazy.reaches hi).normal_of_lazy
  rw [hsame] at hterms'
  exact ⟨terms, hlength, (hlazy n s).2 ⟨Nat.lt_succ_self n, h⟩, hterms, hterms'⟩

/-- Lazy runs are the beginnings of normal runs: a normal run that ends has passed the end of the
lazy one. -/
theorem Strategy.lazy_run_begins_normal_run (mode : Shadowing) (t : Term) :
    (∀ path, Policy.lazy.locate t = .ok (some path) ↔
      t.unapply.1.isValue = true ∧ t.unapply.2 ≠ [] ∧
        path = List.replicate (t.unapply.2.length - 1) .func) ∧
    (∀ path, Policy.lazy.locate t = .ok (some path) →
      Policy.normal.locate t = .ok (some path)) ∧
    (∀ (n : Nat) (s : Term), (⟨.lazy, mode⟩ : Strategy).Reaches n t s →
      ∃ terms, terms.length = n + 1 ∧ terms[n]? = some s ∧
        (Trace.take ⟨.lazy, mode⟩ (n + 1) (.start t)).outcome = .ok terms ∧
        (Trace.take ⟨.normal, mode⟩ (n + 1) (.start t)).outcome = .ok terms) ∧
    ∀ (n : Nat) (r : Term), (⟨.normal, mode⟩ : Strategy).EndsAfter n t r →
      ∃ m ≤ n, ∃ w, (⟨.lazy, mode⟩ : Strategy).EndsAfter m t w ∧
        (⟨.normal, mode⟩ : Strategy).Reaches m t w ∧
        (⟨.normal, mode⟩ : Strategy).EndsAfter (n - m) w r := by
  refine ⟨?_, fun path => Policy.normal_locate_of_lazy,
    fun n s => Trace.exists_take_of_lazy, ?_⟩
  · intro path
    have hiff := Locate.lazy_eq_some_iff_unapply 0 t path
    rw [Nat.zero_add] at hiff
    rw [Policy.locate, Except.ok.injEq]
    exact hiff
  · intro n r hends
    obtain ⟨hreaches, hhalts⟩ := endsAfter_iff.1 hends
    obtain ⟨m, hm, w, hlazy, hlazyHalts, hrest⟩ := hreaches.exists_lazy_end hhalts
    exact ⟨m, hm, w, endsAfter_iff.2 ⟨hlazy, hlazyHalts⟩, hlazy.normal_of_lazy,
      endsAfter_iff.2 ⟨hrest, hhalts⟩⟩

/-- The lazy run stops at a variable whose argument is still to be contracted. -/
theorem Strategy.lazy_run_begins_normal_run_to_variable :
    (∃ terms, terms.length = 2 ∧
      terms[1]? = some (.app (.var "y") (.app (.lam "z" (.var "z")) (.var "u"))) ∧
      (Trace.take ⟨.lazy, .stop⟩ 2 (.start (.app (.lam "x" (.app (.var "y")
        (.app (.lam "z" (.var "z")) (.var "x")))) (.var "u")))).outcome = .ok terms ∧
      (Trace.take ⟨.normal, .stop⟩ 2 (.start (.app (.lam "x" (.app (.var "y")
        (.app (.lam "z" (.var "z")) (.var "x")))) (.var "u")))).outcome = .ok terms) ∧
    ∃ m ≤ 2, ∃ w, (⟨.lazy, .stop⟩ : Strategy).EndsAfter m (.app (.lam "x" (.app (.var "y")
        (.app (.lam "z" (.var "z")) (.var "x")))) (.var "u")) w ∧
      (⟨.normal, .stop⟩ : Strategy).Reaches m (.app (.lam "x" (.app (.var "y")
        (.app (.lam "z" (.var "z")) (.var "x")))) (.var "u")) w ∧
      (⟨.normal, .stop⟩ : Strategy).EndsAfter (2 - m) w (.app (.var "y") (.var "u")) := by
  have hlazy : ((⟨.lazy, .stop⟩ : Strategy).step (.app (.lam "x" (.app (.var "y")
      (.app (.lam "z" (.var "z")) (.var "x")))) (.var "u"))).outcome =
        .ok (some (.app (.var "y") (.app (.lam "z" (.var "z")) (.var "u")))) := by decide +kernel
  have hsecond : ((⟨.normal, .stop⟩ : Strategy).step
      (.app (.var "y") (.app (.lam "z" (.var "z")) (.var "u")))).outcome =
        .ok (some (.app (.var "y") (.var "u"))) := by
    have hlocate : (⟨.normal, .stop⟩ : Strategy).locate
        (.app (.var "y") (.app (.lam "z" (.var "z")) (.var "u"))) = .ok (some [.arg]) := by cbv
    refine outcome_step_eq_some_iff.2 ⟨[.arg], hlocate, ?_⟩
    apply Term.ContractsAt.arg
    apply Term.ContractsAt.root
    decide +kernel
  have hhalts : (⟨.normal, .stop⟩ : Strategy).Halts (.app (.var "y") (.var "u")) :=
    halts_iff_locate_eq_none.2 (by cbv)
  obtain ⟨_, _, htraces, hends⟩ := Strategy.lazy_run_begins_normal_run .stop
    (.app (.lam "x" (.app (.var "y") (.app (.lam "z" (.var "z")) (.var "x")))) (.var "u"))
  refine ⟨htraces 1 _ (.head hlazy (.refl _)), hends 2 _ (endsAfter_iff.2 ⟨?_, hhalts⟩)⟩
  exact .head (normal_step_of_lazy hlazy) (.head hsecond (.refl _))

end UntypedLambda

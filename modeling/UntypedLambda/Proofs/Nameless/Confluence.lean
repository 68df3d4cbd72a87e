import UntypedLambda.Proofs.Nameless.Contraction
import UntypedLambda.Proofs.Nameless.Shifting
import Mathlib.Logic.Relation
/-!
# Confluence of nameless terms

A parallel step contracts any number of the redexes of a term at once, and the development of a term
contracts all of them. Whatever a parallel step has left out, a further one catches up with, so every
parallel step from a term can be followed by one to its development. Two parallel steps from one term
therefore meet, and contraction has the same reducts as parallel steps have.
-/

namespace UntypedLambda.Nameless

open Relation

def Contracts (t t' : Nameless) : Prop :=
  ∃ path, ContractsAt path t t'

/-- Contraction of any number of redexes at once. -/
inductive Parallel : Nameless → Nameless → Prop
  | var (index : Nat) : Parallel (.var index) (.var index)
  | lam {body body' : Nameless} (hbody : Parallel body body') : Parallel (.lam body) (.lam body')
  | app {func func' arg arg' : Nameless} (hfunc : Parallel func func') (harg : Parallel arg arg') :
      Parallel (.app func arg) (.app func' arg')
  | beta {body body' arg arg' : Nameless} (hbody : Parallel body body')
      (harg : Parallel arg arg') : Parallel (.app (.lam body) arg) (subst 0 arg' body')

/-- Contraction of all redexes at once. -/
def develop : Nameless → Nameless
  | var index => .var index
  | lam body => .lam body.develop
  | app (lam body) arg => subst 0 arg.develop body.develop
  | app func arg => .app func.develop arg.develop

variable {t t' s s' : Nameless}

/-! ### Parallel steps pass shifting and substitution -/

theorem Parallel.refl (t : Nameless) : Parallel t t := by
  induction t with
  | var index => exact .var index
  | lam body ih => exact .lam ih
  | app func arg ihf iha => exact .app ihf iha

theorem Parallel.shift (h : Parallel t t') (c : Nat) :
    Parallel (Nameless.shift 1 c t) (Nameless.shift 1 c t') := by
  induction h generalizing c with
  | var index => exact .refl _
  | lam _ ih => exact .lam (ih (c + 1))
  | app _ _ ihf iha => exact .app (ihf c) (iha c)
  | @beta body body' arg arg' _ _ ihb iha =>
    rw [shift_subst_of_ge body' (Nat.zero_le c)]
    exact .beta (ihb (c + 1)) (iha c)

theorem Parallel.subst (ht : Parallel t t') (hs : Parallel s s') (j : Nat) :
    Parallel (Nameless.subst j s t) (Nameless.subst j s' t') := by
  induction ht generalizing s s' j with
  | var index =>
    simp only [Nameless.subst]
    split
    · exact .var index
    split
    · exact hs
    · exact .var (index - 1)
  | lam _ ih => exact .lam (ih (hs.shift 0) (j + 1))
  | app _ _ ihf iha => exact .app (ihf hs j) (iha hs j)
  | @beta body body' arg arg' _ _ ihb iha =>
    rw [subst_subst body' (Nat.zero_le j)]
    exact .beta (ihb (hs.shift 0) (j + 1)) (iha hs j)

/-! ### Every parallel step can be completed to the development -/

theorem Parallel.to_develop (h : Parallel t t') : Parallel t' t.develop := by
  induction h with
  | var index => exact .var index
  | lam _ ih => exact .lam ih
  | @app func func' arg arg' hfunc _ ihf iha =>
    cases func with
    | var index => exact .app ihf iha
    | app _ _ => exact .app ihf iha
    | lam body =>
      -- The step has kept the redex, and the development contracts it.
      cases hfunc with
      | lam hbody =>
        cases ihf with
        | lam ihbody => exact .beta ihbody iha
  | beta _ _ ihb iha => exact ihb.subst iha 0

theorem Parallel.diamond {u v : Nameless} (hu : Parallel t u) (hv : Parallel t v) :
    ∃ w, Parallel u w ∧ Parallel v w :=
  ⟨t.develop, hu.to_develop, hv.to_develop⟩

/-! ### Contraction and parallel steps reach the same terms -/

theorem ContractsAt.parallel {path : Path} (h : ContractsAt path t t') : Parallel t t' := by
  induction h with
  | root body arg => exact .beta (.refl body) (.refl arg)
  | body _ ih => exact .lam ih
  | func arg _ ih => exact .app ih (.refl arg)
  | arg func _ ih => exact .app (.refl func) ih

theorem Contracts.lam (h : Contracts t t') : Contracts (.lam t) (.lam t') := by
  obtain ⟨path, hpath⟩ := h
  exact ⟨.body :: path, .body hpath⟩

theorem Contracts.func (h : Contracts t t') (arg : Nameless) :
    Contracts (.app t arg) (.app t' arg) := by
  obtain ⟨path, hpath⟩ := h
  exact ⟨.func :: path, .func arg hpath⟩

theorem Contracts.arg (h : Contracts t t') (func : Nameless) :
    Contracts (.app func t) (.app func t') := by
  obtain ⟨path, hpath⟩ := h
  exact ⟨.arg :: path, .arg func hpath⟩

theorem reduces_lam (h : ReflTransGen Contracts t t') : ReflTransGen Contracts (.lam t) (.lam t') :=
  ReflTransGen.lift Nameless.lam (fun _ _ => Contracts.lam) _ _ h

theorem reduces_app (ht : ReflTransGen Contracts t t') (hs : ReflTransGen Contracts s s') :
    ReflTransGen Contracts (.app t s) (.app t' s') := by
  have hfunc : ReflTransGen Contracts (.app t s) (.app t' s) :=
    ReflTransGen.lift (Nameless.app · s) (fun _ _ h => h.func s) _ _ ht
  have harg : ReflTransGen Contracts (.app t' s) (.app t' s') :=
    ReflTransGen.lift (Nameless.app t') (fun _ _ h => h.arg t') _ _ hs
  exact hfunc.trans harg

theorem Parallel.reduces (h : Parallel t t') : ReflTransGen Contracts t t' := by
  induction h with
  | var index => exact .refl
  | lam _ ih => exact reduces_lam ih
  | app _ _ ihf iha => exact reduces_app ihf iha
  | @beta body body' arg arg' _ _ ihb iha =>
    have hroot : Contracts (.app (.lam body') arg') (Nameless.subst 0 arg' body') :=
      ⟨[], .root body' arg'⟩
    exact (reduces_app (reduces_lam ihb) iha).tail hroot

theorem confluent {u v : Nameless} (hu : ReflTransGen Contracts t u)
    (hv : ReflTransGen Contracts t v) :
    ∃ w, ReflTransGen Contracts u w ∧ ReflTransGen Contracts v w := by
  have hparallel : Contracts ≤ Parallel := by
    rintro a b ⟨path, hpath⟩
    exact hpath.parallel
  have hreduces : Parallel ≤ ReflTransGen Contracts := fun _ _ => Parallel.reduces
  have hdiamond : ∀ a b c, Parallel a b → Parallel a c →
      ∃ d, ReflGen Parallel b d ∧ ReflTransGen Parallel c d := by
    intro a b c hb hc
    obtain ⟨d, hbd, hcd⟩ := hb.diamond hc
    exact ⟨d, .single hbd, .single hcd⟩
  obtain ⟨w, huw, hvw⟩ := church_rosser hdiamond (ReflTransGen.mono hparallel _ _ hu)
    (ReflTransGen.mono hparallel _ _ hv)
  exact ⟨w, reflTransGen_closed hreduces _ _ huw, reflTransGen_closed hreduces _ _ hvw⟩

end UntypedLambda.Nameless

import UntypedLambda.Proofs.Nameless.Confluence
/-!
# Standardisation of nameless terms

Every sequence of contractions can be put in order: first the redex at the head, for as long as that
is called for, and then the parts of the term that is reached, each of them in order again. The order
is given by `Standard`, one rule for each form of the final term. A further contraction of the final
term never breaks it, since a redex that it makes at the head moves to the front.

Two things follow from the order. A term that reduces to an abstraction comes to one by contractions
at the head alone. And a term that has a normal form reaches it by contracting the leftmost outermost
redex every time.
-/

namespace UntypedLambda.Nameless

open Relation

/-- Contraction of the redex at the head: the term itself, or its function, or the function of that,
and so on. -/
inductive HeadContracts : Nameless → Nameless → Prop
  | root (body arg : Nameless) : HeadContracts (.app (.lam body) arg) (subst 0 arg body)
  | func {t t' : Nameless} (arg : Nameless) (h : HeadContracts t t') :
      HeadContracts (.app t arg) (.app t' arg)

/-- Contraction in order: at the head until the form of the final term is there, then in the parts. -/
inductive Standard : Nameless → Nameless → Prop
  | var {t : Nameless} {index : Nat} (head : ReflTransGen HeadContracts t (.var index)) :
      Standard t (.var index)
  | lam {t body body' : Nameless} (head : ReflTransGen HeadContracts t (.lam body))
      (hbody : Standard body body') : Standard t (.lam body')
  | app {t func func' arg arg' : Nameless} (head : ReflTransGen HeadContracts t (.app func arg))
      (hfunc : Standard func func') (harg : Standard arg arg') : Standard t (.app func' arg')

variable {t t' s s' : Nameless}

/-! ### Contraction at the head passes shifting and substitution -/

theorem HeadContracts.shift (h : HeadContracts t t') (c : Nat) :
    HeadContracts (Nameless.shift 1 c t) (Nameless.shift 1 c t') := by
  induction h with
  | root body arg =>
    rw [shift_subst_of_ge body (Nat.zero_le c)]
    exact .root _ _
  | func arg _ ih => exact .func _ ih

theorem HeadContracts.subst (h : HeadContracts t t') (j : Nat) (s : Nameless) :
    HeadContracts (Nameless.subst j s t) (Nameless.subst j s t') := by
  induction h with
  | root body arg =>
    rw [subst_subst body (Nat.zero_le j)]
    exact .root _ _
  | func arg _ ih => exact .func _ ih

theorem head_reduces_shift (h : ReflTransGen HeadContracts t t') (c : Nat) :
    ReflTransGen HeadContracts (shift 1 c t) (shift 1 c t') :=
  ReflTransGen.lift (shift 1 c) (fun _ _ hstep => hstep.shift c) _ _ h

theorem head_reduces_subst (h : ReflTransGen HeadContracts t t') (j : Nat) (s : Nameless) :
    ReflTransGen HeadContracts (subst j s t) (subst j s t') :=
  ReflTransGen.lift (subst j s) (fun _ _ hstep => hstep.subst j s) _ _ h

theorem head_reduces_func (h : ReflTransGen HeadContracts t t') (arg : Nameless) :
    ReflTransGen HeadContracts (.app t arg) (.app t' arg) :=
  ReflTransGen.lift (Nameless.app · arg) (fun _ _ hstep => hstep.func arg) _ _ h

/-! ### Sequences in order -/

theorem Standard.refl (t : Nameless) : Standard t t := by
  induction t with
  | var index => exact .var .refl
  | lam body ih => exact .lam .refl ih
  | app func arg ihf iha => exact .app .refl ihf iha

theorem Standard.of_head (hhead : ReflTransGen HeadContracts s t) (h : Standard t t') :
    Standard s t' := by
  cases h with
  | var head => exact .var (hhead.trans head)
  | lam head hbody => exact .lam (hhead.trans head) hbody
  | app head hfunc harg => exact .app (hhead.trans head) hfunc harg

theorem Standard.shift (h : Standard t t') (c : Nat) :
    Standard (Nameless.shift 1 c t) (Nameless.shift 1 c t') := by
  induction h generalizing c with
  | var head => exact .of_head (head_reduces_shift head c) (.refl _)
  | lam head _ ih => exact .lam (head_reduces_shift head c) (ih (c + 1))
  | app head _ _ ihf iha => exact .app (head_reduces_shift head c) (ihf c) (iha c)

theorem Standard.subst (ht : Standard t t') (hs : Standard s s') (j : Nat) :
    Standard (Nameless.subst j s t) (Nameless.subst j s' t') := by
  induction ht generalizing s s' j with
  | @var t index head =>
    refine .of_head (head_reduces_subst head j s) ?_
    simp only [Nameless.subst]
    split
    · exact .refl _
    split
    · exact hs
    · exact .refl _
  | lam head _ ih => exact .lam (head_reduces_subst head j s) (ih (hs.shift 0) (j + 1))
  | app head _ _ ihf iha => exact .app (head_reduces_subst head j s) (ihf hs j) (iha hs j)

theorem Standard.contract {body arg : Nameless} (h : Standard t (.app (.lam body) arg)) :
    Standard t (Nameless.subst 0 arg body) := by
  cases h with
  | @app _ func _ operand _ head hfunc harg =>
    cases hfunc with
    | @lam _ body₀ _ hheadFunc hbody =>
      -- Both the term and its function come to their forms at the head, and there the redex is.
      have hredex : ReflTransGen HeadContracts t (.app (.lam body₀) operand) :=
        head.trans (head_reduces_func hheadFunc operand)
      have hroot : HeadContracts (.app (.lam body₀) operand) (Nameless.subst 0 operand body₀) :=
        .root body₀ operand
      exact .of_head (hredex.tail hroot) (hbody.subst harg 0)

theorem Standard.contractsAt {path : Path} (h : Standard t s) (hs : ContractsAt path s s') :
    Standard t s' := by
  induction hs generalizing t with
  | root body arg => exact h.contract
  | body _ ih =>
    cases h with
    | lam head hbody => exact .lam head (ih hbody)
  | func arg _ ih =>
    cases h with
    | app head hfunc harg => exact .app head (ih hfunc) harg
  | arg func _ ih =>
    cases h with
    | app head hfunc harg => exact .app head hfunc (ih harg)

/-- Every sequence of contractions can be put in order. -/
theorem standard_of_reduces (h : ReflTransGen Contracts t t') : Standard t t' := by
  induction h with
  | refl => exact .refl t
  | tail _ hlast ih =>
    obtain ⟨path, hpath⟩ := hlast
    exact ih.contractsAt hpath

theorem exists_head_reduces_lam {body : Nameless} (h : ReflTransGen Contracts t (.lam body)) :
    ∃ body', ReflTransGen HeadContracts t (.lam body') := by
  cases standard_of_reduces h with
  | @lam _ body' _ head _ => exact ⟨body', head⟩

/-! ### Leftmost contraction -/

def isValue : Nameless → Bool
  | lam _ => true
  | _ => false

def IsNormal : Nameless → Prop
  | var _ => True
  | lam body => body.IsNormal
  | app func arg => func.isValue = false ∧ func.IsNormal ∧ arg.IsNormal

/-- Contraction of the leftmost outermost redex: an argument is entered only when nothing is left to
do in the function. -/
inductive LeftmostContracts : Nameless → Nameless → Prop
  | root (body arg : Nameless) : LeftmostContracts (.app (.lam body) arg) (subst 0 arg body)
  | body {t t' : Nameless} (h : LeftmostContracts t t') : LeftmostContracts (.lam t) (.lam t')
  | func {t t' : Nameless} (arg : Nameless) (hvalue : t.isValue = false)
      (h : LeftmostContracts t t') : LeftmostContracts (.app t arg) (.app t' arg)
  | arg {func t t' : Nameless} (hvalue : func.isValue = false) (hnormal : func.IsNormal)
      (h : LeftmostContracts t t') : LeftmostContracts (.app func t) (.app func t')

theorem HeadContracts.isValue_eq_false (h : HeadContracts t t') : t.isValue = false := by
  cases h <;> rfl

theorem HeadContracts.leftmost (h : HeadContracts t t') : LeftmostContracts t t' := by
  induction h with
  | root body arg => exact .root body arg
  | func arg h ih => exact .func arg h.isValue_eq_false ih

theorem leftmost_reduces_of_head (h : ReflTransGen HeadContracts t t') :
    ReflTransGen LeftmostContracts t t' :=
  ReflTransGen.mono (fun _ _ => HeadContracts.leftmost) _ _ h

theorem leftmost_reduces_body (h : ReflTransGen LeftmostContracts t t') :
    ReflTransGen LeftmostContracts (.lam t) (.lam t') :=
  ReflTransGen.lift Nameless.lam (fun _ _ => LeftmostContracts.body) _ _ h

theorem leftmost_reduces_arg {func : Nameless} (hvalue : func.isValue = false)
    (hnormal : func.IsNormal) (h : ReflTransGen LeftmostContracts t t') :
    ReflTransGen LeftmostContracts (.app func t) (.app func t') :=
  ReflTransGen.lift (Nameless.app func) (fun _ _ => LeftmostContracts.arg hvalue hnormal) _ _ h

theorem LeftmostContracts.isValue_eq_false (h : LeftmostContracts t t')
    (hvalue : t'.isValue = false) : t.isValue = false := by
  cases h with
  | body h => cases hvalue
  | _ => rfl

/-- Leftmost contractions of a function that does not become an abstraction are leftmost in the
application: an abstraction stays one, so the function was none at any time. -/
theorem leftmost_reduces_func (h : ReflTransGen LeftmostContracts t t')
    (hvalue : t'.isValue = false) (arg : Nameless) :
    t.isValue = false ∧ ReflTransGen LeftmostContracts (.app t arg) (.app t' arg) := by
  induction h using ReflTransGen.head_induction_on with
  | refl => exact ⟨hvalue, .refl⟩
  | head first _ ih =>
    have hfirst := first.isValue_eq_false ih.1
    exact ⟨hfirst, .head (.func arg hfirst first) ih.2⟩

theorem Standard.leftmost_reduces (h : Standard t t') (hnormal : t'.IsNormal) :
    ReflTransGen LeftmostContracts t t' := by
  induction h with
  | var head => exact leftmost_reduces_of_head head
  | lam head _ ih => exact (leftmost_reduces_of_head head).trans (leftmost_reduces_body (ih hnormal))
  | @app t func func' arg arg' head _ _ ihf iha =>
    obtain ⟨hvalue, hfunc, harg⟩ := hnormal
    have hleft : ReflTransGen LeftmostContracts (.app func arg) (.app func' arg) :=
      (leftmost_reduces_func (ihf hfunc) hvalue arg).2
    have hright : ReflTransGen LeftmostContracts (.app func' arg) (.app func' arg') :=
      leftmost_reduces_arg hvalue hfunc (iha harg)
    exact (leftmost_reduces_of_head head).trans (hleft.trans hright)

theorem leftmost_reduces_of_reduces (h : ReflTransGen Contracts t t') (hnormal : t'.IsNormal) :
    ReflTransGen LeftmostContracts t t' :=
  (standard_of_reduces h).leftmost_reduces hnormal

end UntypedLambda.Nameless

import UntypedLambda.Proofs.Strategy.Locate
/-!
# Evaluation contexts

Call by value can be told without a search. An evaluation context is a term with a hole where
evaluation goes on: on the function side of an application, or on its argument side once the function
is an abstraction. A term that is no value splits in at most one way into such a context and a redex
whose argument is a value, and call by value contracts that redex.

The search never turns back from the side it has chosen, so in a context that is filled with an
application it comes to the hole. What fills the hole decides how it ends: at a redex, or with a fault
where a text or a number would have to say whether it is a value.
-/

namespace UntypedLambda

/-- A term with a hole at a place where call by value evaluates. -/
inductive EvaluationContext where
  | hole
  /-- The hole is in the function, whatever the argument is. -/
  | applied (context : EvaluationContext) (arg : Term)
  /-- The hole is in the argument of an abstraction. -/
  | operand (binder : Name) (body : Term) (context : EvaluationContext)
  deriving DecidableEq

def Term.isValueRedex : Term → Bool
  | .app (.lam _ _) (.lam _ _) => true
  | _ => false

/-- An application has to ask this leaf whether it is a value. -/
inductive Term.Asks : Term → Foreign → Prop
  | func (leaf : Foreign) (arg : Term) : Asks (.app (.foreign leaf) arg) leaf
  | arg (binder : Name) (body : Term) (leaf : Foreign) :
      Asks (.app (.lam binder body) (.foreign leaf)) leaf

/-- Only abstractions are values, and only a text or a number cannot be asked. -/
theorem Term.askValue_eq_false_or (t : Term) :
    t.askValue = .ok false ∨ (∃ binder body, t = lam binder body) ∨
      ∃ leaf, t = foreign leaf ∧ leaf ≠ .bare := by
  rcases t.askValue_cases with hask | ⟨leaf, rfl, hleaf, _⟩
  · cases t with
    | lam binder body => exact .inr (.inl ⟨binder, body, rfl⟩)
    | _ => exact .inl hask
  · exact .inr (.inr ⟨leaf, rfl, hleaf⟩)

namespace EvaluationContext

def plug : EvaluationContext → Term → Term
  | hole, t => t
  | applied context arg, t => .app (context.plug t) arg
  | operand binder body context, t => .app (.lam binder body) (context.plug t)

def path : EvaluationContext → Path
  | hole => []
  | applied context _ => .func :: context.path
  | operand _ _ context => .arg :: context.path

def Splits (t : Term) (context : EvaluationContext) (redex : Term) : Prop :=
  t = context.plug redex ∧ redex.isValueRedex = true

/-- A term is the context filled with an application that asks a text or a number. -/
def Stumbles (t : Term) (context : EvaluationContext) (leaf : Foreign) : Prop :=
  ∃ node, t = context.plug node ∧ node.Asks leaf ∧ leaf ≠ .bare

variable {context other : EvaluationContext} {t func arg redex redex' : Term} {leaf : Foreign}

theorem Splits.applied (h : Splits func context redex) (arg : Term) :
    Splits (.app func arg) (.applied context arg) redex :=
  ⟨congrArg (Term.app · arg) h.1, h.2⟩

theorem Splits.operand (h : Splits arg context redex) (binder : Name) (body : Term) :
    Splits (.app (.lam binder body) arg) (.operand binder body context) redex :=
  ⟨congrArg (Term.app _) h.1, h.2⟩

theorem Stumbles.applied (h : Stumbles func context leaf) (arg : Term) :
    Stumbles (.app func arg) (.applied context arg) leaf := by
  obtain ⟨node, hplug, hnode⟩ := h
  exact ⟨node, congrArg (Term.app · arg) hplug, hnode⟩

theorem Stumbles.operand (h : Stumbles arg context leaf) (binder : Name) (body : Term) :
    Stumbles (.app (.lam binder body) arg) (.operand binder body context) leaf := by
  obtain ⟨node, hplug, hnode⟩ := h
  exact ⟨node, congrArg (Term.app _) hplug, hnode⟩

theorem subterm_plug (context : EvaluationContext) (t : Term) :
    (context.plug t).subterm context.path = .ok t := by
  induction context with
  | hole => rfl
  | applied context arg ih => exact ih
  | operand binder body context ih => exact ih

theorem askValue_plug (context : EvaluationContext) (func arg : Term) :
    (context.plug (.app func arg)).askValue = .ok false := by
  cases context <;> rfl

theorem eq_of_plug_eq (hpath : context.path = other.path)
    (hplug : context.plug redex = other.plug redex') : context = other := by
  induction context generalizing other with
  | hole =>
    cases other with
    | hole => rfl
    | _ => cases hpath
  | applied context arg ih =>
    cases other with
    | applied other arg' =>
      obtain ⟨hfunc, rfl⟩ := Term.app.inj hplug
      rw [ih (List.cons.inj hpath).2 hfunc]
    | _ => cases hpath
  | operand binder body context ih =>
    cases other with
    | operand binder' body' other =>
      obtain ⟨hlam, harg⟩ := Term.app.inj hplug
      cases hlam
      rw [ih (List.cons.inj hpath).2 harg]
    | _ => cases hpath

end EvaluationContext

open EvaluationContext

namespace Locate

open Term

variable {redex node : Term} {leaf : Foreign}

/-- The search comes to the hole of a context that an application fills. -/
theorem callByValue_plug (context : EvaluationContext) (func arg : Term) (trail : Trail Edge) :
    callByValue trail (context.plug (.app func arg)) =
      callByValue (context.path.reverse ++ trail) (.app func arg) := by
  induction context generalizing trail with
  | hole => rfl
  | applied context arg' ih =>
    show callByValue trail (.app (context.plug (.app func arg)) arg') = _
    rw [callByValue, askValue_plug, path, List.reverse_cons, List.append_assoc]
    exact ih (.func :: trail)
  | operand binder body context ih =>
    show callByValue trail (.app (.lam binder body) (context.plug (.app func arg))) = _
    rw [callByValue, askValue_plug, path, List.reverse_cons, List.append_assoc]
    exact ih (.arg :: trail)

theorem callByValue_plug_valueRedex (context : EvaluationContext) (h : redex.isValueRedex = true) :
    callByValue [] (context.plug redex) = .ok (some context.path) := by
  revert h
  fun_cases isValueRedex redex with
  | case1 =>
    intro _
    rw [callByValue_plug, List.append_nil]
    show Except.ok (some context.path.reverse.reverse) = _
    rw [List.reverse_reverse]
  | case2 => nofun

theorem callByValue_plug_asks (context : EvaluationContext) (h : node.Asks leaf)
    (hleaf : leaf ≠ .bare) (trail : Trail Edge) :
    callByValue trail (context.plug node) = .error (.noPart leaf.kind "is_value") := by
  cases h with
  | func leaf arg =>
    rw [callByValue_plug]
    cases leaf with
    | bare => exact absurd rfl hleaf
    | _ => rfl
  | arg binder body leaf =>
    rw [callByValue_plug]
    cases leaf with
    | bare => exact absurd rfl hleaf
    | _ => rfl

theorem callByValue_cases (trail : Trail Edge) (t : Term) :
    (∃ context redex, Splits t context redex) ∨ (∃ context leaf, Stumbles t context leaf) ∨
      callByValue trail t = .ok none := by
  induction t generalizing trail with
  | app func arg ihf iha =>
    rcases func.askValue_eq_false_or with hfunc | ⟨binder, body, rfl⟩ | ⟨leaf, rfl, hleaf⟩
    · rw [callByValue, hfunc]
      rcases ihf (.func :: trail) with ⟨context, redex, h⟩ | ⟨context, leaf, h⟩ | hnone
      · exact .inl ⟨.applied context arg, redex, h.applied arg⟩
      · exact .inr (.inl ⟨.applied context arg, leaf, h.applied arg⟩)
      · exact .inr (.inr hnone)
    · rcases arg.askValue_eq_false_or with harg | ⟨binder', body', rfl⟩ | ⟨leaf, rfl, hleaf⟩
      · rw [callByValue, harg]
        rcases iha (.arg :: trail) with ⟨context, redex, h⟩ | ⟨context, leaf, h⟩ | hnone
        · exact .inl ⟨.operand binder body context, redex, h.operand binder body⟩
        · exact .inr (.inl ⟨.operand binder body context, leaf, h.operand binder body⟩)
        · exact .inr (.inr hnone)
      · exact .inl ⟨.hole, _, rfl, rfl⟩
      · exact .inr (.inl ⟨.hole, leaf, _, rfl, .arg binder body leaf, hleaf⟩)
    · exact .inr (.inl ⟨.hole, leaf, _, rfl, .func leaf arg, hleaf⟩)
  | _ => exact .inr (.inr rfl)

end Locate

/-- Call by value locates the hole of the one evaluation context that splits the term, and fails where
a text or a number has to be asked for a value. -/
theorem Policy.callByValue_locates_split (t : Term) :
    (∀ path, Policy.callByValue.locate t = .ok (some path) ↔
      ∃ context redex, Splits t context redex ∧ context.path = path) ∧
    (∀ context redex other redex', Splits t context redex → Splits t other redex' →
      context = other ∧ redex = redex') ∧
    (t.Proper →
      (Policy.callByValue.locate t = .ok none ↔ ¬ ∃ context redex, Splits t context redex)) ∧
    ∀ fault, Policy.callByValue.locate t = .error fault ↔
      ∃ context leaf, Stumbles t context leaf ∧ fault = .noPart leaf.kind "is_value" := by
  have hsplits : ∀ context redex, Splits t context redex →
      Policy.callByValue.locate t = .ok (some context.path) := by
    rintro context redex ⟨rfl, hredex⟩
    exact Locate.callByValue_plug_valueRedex context hredex
  have hstumbles : ∀ context leaf, Stumbles t context leaf →
      Policy.callByValue.locate t = .error (.noPart leaf.kind "is_value") := by
    rintro context leaf ⟨node, rfl, hasks, hleaf⟩
    exact Locate.callByValue_plug_asks context hasks hleaf []
  have hcases := Locate.callByValue_cases [] t
  refine ⟨?_, ?_, ?_, ?_⟩
  · intro path
    constructor
    · intro hpath
      rcases hcases with ⟨context, redex, h⟩ | ⟨context, leaf, h⟩ | hnone
      · cases hpath.symm.trans (hsplits context redex h)
        exact ⟨context, redex, h, rfl⟩
      · cases hpath.symm.trans (hstumbles context leaf h)
      · cases hpath.symm.trans hnone
    · rintro ⟨context, redex, h, rfl⟩
      exact hsplits context redex h
  · intro context redex other redex' h hother
    have hsame := (hsplits context redex h).symm.trans (hsplits other redex' hother)
    have hpath : context.path = other.path := Option.some.inj (Except.ok.inj hsame)
    obtain rfl := eq_of_plug_eq hpath (h.1.symm.trans hother.1)
    have hfilled := subterm_plug context redex
    rw [← h.1, hother.1, subterm_plug] at hfilled
    exact ⟨rfl, (Except.ok.inj hfilled).symm⟩
  · intro ht
    constructor
    · rintro hnone ⟨context, redex, h⟩
      cases hnone.symm.trans (hsplits context redex h)
    · intro hno
      rcases hcases with hsplit | ⟨context, leaf, h⟩ | hnone
      · exact absurd hsplit hno
      · obtain ⟨found, hfound⟩ := Policy.callByValue.exists_locate (.inr ht)
        cases hfound.symm.trans (hstumbles context leaf h)
      · exact hnone
  · intro fault
    constructor
    · intro hfault
      rcases hcases with ⟨context, redex, h⟩ | ⟨context, leaf, h⟩ | hnone
      · cases hfault.symm.trans (hsplits context redex h)
      · cases hfault.symm.trans (hstumbles context leaf h)
        exact ⟨context, leaf, h, rfl⟩
      · cases hfault.symm.trans hnone
    · rintro ⟨context, leaf, h, rfl⟩
      exact hstumbles context leaf h

/-- The function is evaluated before the argument; an abstraction does not get past an argument that
is stuck, nor past a text that is no term. -/
theorem Policy.callByValue_locates_split_function_first :
    (∀ context redex, Splits (.app (.app (.lam "x" (.var "x")) (.lam "y" (.var "y")))
        (.app (.lam "x" (.var "x")) (.lam "y" (.var "y")))) context redex →
      context = .applied .hole (.app (.lam "x" (.var "x")) (.lam "y" (.var "y")))) ∧
    (¬ ∃ context redex,
      Splits (.app (.lam "x" (.var "x")) (.app (.var "z") (.var "z"))) context redex) ∧
    Policy.callByValue.locate (.app (.lam "x" (.var "x")) (.foreign (.text "s"))) =
      .error (.noPart .text "is_value") := by
  refine ⟨?_, ?_, ?_⟩
  · intro context redex h
    exact ((Policy.callByValue_locates_split _).2.1 context redex
      (.applied .hole (.app (.lam "x" (.var "x")) (.lam "y" (.var "y")))) _ h ⟨rfl, rfl⟩).1
  · exact ((Policy.callByValue_locates_split _).2.2.1 (by decide)).1 rfl
  · exact ((Policy.callByValue_locates_split _).2.2.2 _).2
      ⟨.hole, .text "s", ⟨_, rfl, .arg "x" (.var "x") (.text "s"), nofun⟩, rfl⟩

end UntypedLambda

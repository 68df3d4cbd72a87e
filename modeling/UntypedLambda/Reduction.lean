import UntypedLambda.Strategy.Basic
/-!
# Reduction

Reduction without a strategy: any redex may be contracted, wherever it stands and with either
treatment of shadowing.
-/

namespace UntypedLambda.Term

/-- One contraction, at some path and with some treatment of shadowing. -/
def Contracts (t reduct : Term) : Prop :=
  ∃ (path : Path) (redex contractum : Term) (shadowing : Shadowing),
    t.subterm path = .ok redex ∧ redex.isRedex = true ∧
      (redex.contract shadowing).outcome = .ok contractum ∧ t.replaceAt path contractum = .ok reduct

inductive Reduces : Term → Term → Prop
  | refl (t : Term) : Reduces t t
  | head {t u v : Term} (first : t.Contracts u) (rest : Reduces u v) : Reduces t v

/-- A term is normal when none of its subterms is a redex. -/
def IsNormal : Term → Prop
  | var _ => True
  | lam _ body => body.IsNormal
  | app func arg => func.isValue = false ∧ func.IsNormal ∧ arg.IsNormal
  | foreign _ => True

end UntypedLambda.Term

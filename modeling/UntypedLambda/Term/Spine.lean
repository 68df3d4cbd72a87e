import UntypedLambda.Term.Formation
/-!
# Spines

Applications of a head to several arguments, and abstractions over several binders.
-/

namespace UntypedLambda.Term

/-- Applies a term to arguments from left to right. A text among the arguments stands for the
variable of that name. -/
def applyTo (head : Term) (args : List Term) : Except Fault Term :=
  args.foldlM (fun func arg => return .app func (← arg.ofOperand)) head

/-- Abstracts a body over binders, the first of them outermost. A text as the body stands for the
variable of that name. -/
def abstractOver (binders : List Name) (body : Term) : Except Fault Term :=
  binders.foldr (fun binder inner => do formLam binder (← inner)) body.ofOperand

def unapplyOnto : Term → List Term → Term × List Term
  | app func arg, args => func.unapplyOnto (arg :: args)
  | head, args => (head, args)

/-- Splits an application into its head, which is no application, and its arguments. -/
def unapply (t : Term) : Term × List Term :=
  t.unapplyOnto []

/-! ### Heads and arguments -/

theorem unapplyOnto_eq (t : Term) (args : List Term) :
    t.unapplyOnto args = (t.unapply.1, t.unapply.2 ++ args) := by
  induction t generalizing args with
  | app func arg ihf iha =>
    rw [unapply, unapplyOnto, unapplyOnto, ihf, ihf [arg], List.append_assoc]
    rfl
  | _ => rfl

theorem unapply_app (func arg : Term) :
    (app func arg).unapply = (func.unapply.1, func.unapply.2 ++ [arg]) :=
  func.unapplyOnto_eq [arg]

theorem unapply_fst_of_snd_eq_nil {t : Term} (h : t.unapply.2 = []) : t.unapply.1 = t := by
  cases t with
  | app func arg =>
    rw [unapply_app] at h
    exact absurd h (List.append_ne_nil_of_right_ne_nil _ (List.cons_ne_nil _ _))
  | _ => rfl

end UntypedLambda.Term

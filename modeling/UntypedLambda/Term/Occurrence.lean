import UntypedLambda.Term.Basic
/-!
# Occurrences of names

Where names occur in a term, by recursion on its structure and without regard to foreign leaves. The
lists hold a name once for each occurrence, in preorder.
-/

namespace UntypedLambda.Term

/-- The free occurrences of variables: those of the body of an abstraction except its binder's. -/
def free : Term → List Name
  | var name => [name]
  | lam binder body => body.free.filter (· ≠ binder)
  | app func arg => func.free ++ arg.free
  | foreign _ => []

def binders : Term → List Name
  | var _ => []
  | lam binder body => binder :: body.binders
  | app func arg => func.binders ++ arg.binders
  | foreign _ => []

def labels : Term → List Name
  | var name => [name]
  | lam binder body => binder :: body.labels
  | app func arg => func.labels ++ arg.labels
  | foreign _ => []

def foreignLeaves : Term → List Foreign
  | var _ => []
  | lam _ body => body.foreignLeaves
  | app func arg => func.foreignLeaves ++ arg.foreignLeaves
  | foreign leaf => [leaf]

def Closed (t : Term) : Prop :=
  t.free = []

/-- No text and no number stands where a term was expected; a leaf without structure is a term. -/
def Proper (t : Term) : Prop :=
  ∀ leaf ∈ t.foreignLeaves, leaf = .bare

instance decidableProper (t : Term) : Decidable t.Proper :=
  inferInstanceAs (Decidable (∀ leaf ∈ t.foreignLeaves, leaf = .bare))

/-! ### Membership -/

@[simp] theorem mem_free_var {name n : Name} : n ∈ (var name).free ↔ n = name := by
  simp [free]

@[simp] theorem mem_free_lam {binder n : Name} {body : Term} :
    n ∈ (lam binder body).free ↔ n ∈ body.free ∧ n ≠ binder := by
  simp [free]

@[simp] theorem mem_free_app {func arg : Term} {n : Name} :
    n ∈ (app func arg).free ↔ n ∈ func.free ∨ n ∈ arg.free := by
  simp [free]

theorem WellFormed.foreignLeaves_eq_nil {t : Term} (h : t.WellFormed) : t.foreignLeaves = [] := by
  induction t with
  | var name => rfl
  | lam binder body ih => exact ih h.2
  | app func arg ihf iha => simp [foreignLeaves, ihf h.1, iha h.2]
  | foreign leaf => exact h.elim

theorem WellFormed.proper {t : Term} (h : t.WellFormed) : t.Proper := by
  simp [Proper, h.foreignLeaves_eq_nil]

theorem proper_app_iff {func arg : Term} : (app func arg).Proper ↔ func.Proper ∧ arg.Proper :=
  List.forall_mem_append

end UntypedLambda.Term

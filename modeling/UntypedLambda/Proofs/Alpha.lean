import UntypedLambda.Term.Alpha
import UntypedLambda.Term.Occurrence
/-!
# What alpha-equivalent terms share

Alpha-equivalent terms have the same nodes up to the names on them, and the same free names.
-/

namespace UntypedLambda

theorem SameReference.eq_and_notMem_iff {pairs : List (Name × Name)} {left right : Name}
    (h : SameReference pairs left right) (n : Name) :
    (n = left ∧ n ∉ pairs.map Prod.fst) ↔ (n = right ∧ n ∉ pairs.map Prod.snd) := by
  induction pairs with
  | nil =>
    obtain rfl : left = right := h
    simp
  | cons pair pairs ih =>
    obtain ⟨x, y⟩ := pair
    simp only [List.map_cons, List.mem_cons, not_or]
    rcases h with ⟨rfl, rfl⟩ | ⟨hx, hy, h⟩
    · grind
    · have htail := ih h
      grind

namespace Term

/-! ### The other term, node by node -/

variable {pairs : List (Name × Name)} {x name : Name} {t u func arg body : Term} {leaf : Foreign}

theorem AlphaUnder.var_left (h : AlphaUnder pairs (var name) u) :
    ∃ name', u = var name' ∧ SameReference pairs name name' := by
  cases u with
  | var name' => exact ⟨name', rfl, h⟩
  | _ => exact h.elim

theorem AlphaUnder.lam_left (h : AlphaUnder pairs (lam x body) u) :
    ∃ y body', u = lam y body' ∧ AlphaUnder ((x, y) :: pairs) body body' := by
  cases u with
  | lam y body' => exact ⟨y, body', rfl, h⟩
  | _ => exact h.elim

theorem AlphaUnder.app_left (h : AlphaUnder pairs (app func arg) u) :
    ∃ func' arg', u = app func' arg' ∧ AlphaUnder pairs func func' ∧ AlphaUnder pairs arg arg' := by
  cases u with
  | app func' arg' => exact ⟨func', arg', rfl, h⟩
  | _ => exact h.elim

theorem AlphaUnder.foreign_left (h : AlphaUnder pairs (foreign leaf) u) : u = foreign leaf := by
  cases u with
  | foreign leaf' => exact congrArg foreign (Eq.symm h)
  | _ => exact h.elim

theorem AlphaUnder.mem_free_iff (h : AlphaUnder pairs t u) (n : Name) :
    (n ∈ t.free ∧ n ∉ pairs.map Prod.fst) ↔ (n ∈ u.free ∧ n ∉ pairs.map Prod.snd) := by
  induction t generalizing pairs u with
  | var name =>
    obtain ⟨name', rfl, hsame⟩ := h.var_left
    rw [mem_free_var, mem_free_var]
    exact hsame.eq_and_notMem_iff n
  | lam x body ih =>
    obtain ⟨y, body', rfl, hbody⟩ := h.lam_left
    have hfree := ih hbody
    simp only [List.map_cons, List.mem_cons, not_or] at hfree
    rw [mem_free_lam, mem_free_lam, and_assoc, and_assoc]
    exact hfree
  | app func arg ihf iha =>
    obtain ⟨func', arg', rfl, hfunc, harg⟩ := h.app_left
    rw [mem_free_app, mem_free_app, or_and_right, or_and_right, ihf hfunc, iha harg]
  | foreign leaf =>
    rw [h.foreign_left]
    simp [free]

/-- A term without its names. -/
def shape : Term → Term
  | var _ => var ""
  | lam _ body => lam "" body.shape
  | app func arg => app func.shape arg.shape
  | foreign leaf => foreign leaf

theorem AlphaUnder.shape_eq (h : AlphaUnder pairs t u) : t.shape = u.shape := by
  induction t generalizing pairs u with
  | var name =>
    obtain ⟨name', rfl, _⟩ := h.var_left
    rfl
  | lam x body ih =>
    obtain ⟨y, body', rfl, hbody⟩ := h.lam_left
    rw [shape, shape, ih hbody]
  | app func arg ihf iha =>
    obtain ⟨func', arg', rfl, hfunc, harg⟩ := h.app_left
    rw [shape, shape, ihf hfunc, iha harg]
  | foreign leaf => rw [h.foreign_left]

end Term

end UntypedLambda

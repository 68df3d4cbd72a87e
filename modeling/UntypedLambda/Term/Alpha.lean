import UntypedLambda.Term.Basic
/-!
# Alpha-equivalence

Two terms are alpha-equivalent when they differ only in the choice of bound names. The comparison
walks both at once with the binders passed so far, in pairs and innermost first: two variables agree
when they belong to the same pair, or when no pair has either of them and they are the same name.
-/

namespace UntypedLambda

/-- Whether two names mean the same under pairs of binders, innermost first. -/
def SameReference : List (Name × Name) → Name → Name → Prop
  | [], left, right => left = right
  | (x, y) :: pairs, left, right =>
    (left = x ∧ right = y) ∨ (left ≠ x ∧ right ≠ y ∧ SameReference pairs left right)

theorem SameReference.refl {pairs : List (Name × Name)} (h : ∀ pair ∈ pairs, pair.1 = pair.2)
    (name : Name) : SameReference pairs name name := by
  induction pairs with
  | nil => rfl
  | cons pair pairs ih =>
    obtain ⟨x, y⟩ := pair
    obtain rfl : x = y := h (x, y) List.mem_cons_self
    by_cases hx : name = x
    · exact .inl ⟨hx, hx⟩
    · exact .inr ⟨hx, hx, ih fun pair hpair => h pair (List.mem_cons_of_mem _ hpair)⟩

namespace Term

/-- Alpha-equivalence under pairs of binders, innermost first. -/
def AlphaUnder : List (Name × Name) → Term → Term → Prop
  | pairs, var left, var right => SameReference pairs left right
  | pairs, lam x left, lam y right => AlphaUnder ((x, y) :: pairs) left right
  | pairs, app func arg, app func' arg' => AlphaUnder pairs func func' ∧ AlphaUnder pairs arg arg'
  | _, foreign left, foreign right => left = right
  | _, _, _ => False

def AlphaEq (left right : Term) : Prop :=
  AlphaUnder [] left right

end Term

end UntypedLambda

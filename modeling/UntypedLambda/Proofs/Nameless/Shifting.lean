import UntypedLambda.Nameless.Substitution
/-!
# Laws of shifting and substitution

How shifting by one and substitution pass each other on nameless terms. Substitution only ever
shifts by one, once for each abstraction that it enters, so larger shifts are not needed. The law
that the rest of the theory rests on is `subst_subst`: two substitutions can be exchanged if the
replacement of the first is itself substituted in.
-/

namespace UntypedLambda.Nameless

theorem shift_shift (t : Nameless) {c d : Nat} (hcd : c ≤ d) :
    shift 1 c (shift 1 d t) = shift 1 (d + 1) (shift 1 c t) := by
  induction t generalizing c d with
  | var i =>
    by_cases hd : i < d
    · by_cases hc : i < c
      · simp [shift, hd, hc, Nat.lt_succ_of_lt hd]
      · simp [shift, hd, hc]
    · have hc : ¬ i < c := by omega
      have hc' : ¬ i + 1 < c := by omega
      simp [shift, hd, hc, hc']
  | lam body ih => simp only [shift, ih (Nat.succ_le_succ hcd)]
  | app func arg ihf iha => simp only [shift, ihf hcd, iha hcd]

/-- An index that a shift has just made room for does not occur, so replacing it takes the shift
back. -/
theorem subst_shift_self (t : Nameless) (j : Nat) (s : Nameless) : subst j s (shift 1 j t) = t := by
  induction t generalizing j s with
  | var i =>
    by_cases hi : i < j
    · simp [shift, subst, hi]
    · have hlt : ¬ i + 1 < j := by omega
      have hne : i + 1 ≠ j := by omega
      simp [shift, subst, hi, hlt, hne]
  | lam body ih => rw [shift, subst, ih]
  | app func arg ihf iha => rw [shift, subst, ihf, iha]

theorem subst_var_shift (t : Nameless) (j : Nat) : subst j (var j) (shift 1 (j + 1) t) = t := by
  induction t generalizing j with
  | var i =>
    rcases Nat.lt_trichotomy i j with hlt | rfl | hgt
    · simp [shift, subst, hlt, Nat.lt_succ_of_lt hlt]
    · simp [shift, subst]
    · have hge : ¬ i < j + 1 := by omega
      have hlt : ¬ i + 1 < j := by omega
      have hne : i + 1 ≠ j := by omega
      simp [shift, subst, hge, hlt, hne]
  | lam body ih =>
    have hbody := ih (j + 1)
    simpa [shift, subst] using hbody
  | app func arg ihf iha => rw [shift, subst, ihf, iha]

theorem shift_subst_of_le (t : Nameless) {c j : Nat} (hcj : c ≤ j) (s : Nameless) :
    shift 1 c (subst j s t) = subst (j + 1) (shift 1 c s) (shift 1 c t) := by
  induction t generalizing c j s with
  | var i =>
    rcases Nat.lt_trichotomy i j with hlt | rfl | hgt
    · by_cases hc : i < c
      · simp [shift, subst, hlt, hc, Nat.lt_succ_of_lt hlt]
      · simp [shift, subst, hlt, hc]
    · have hc : ¬ i < c := by omega
      simp [shift, subst, hc]
    · have hc : ¬ i < c := by omega
      have hc' : ¬ i - 1 < c := by omega
      have hj : ¬ i < j := by omega
      have hne : i ≠ j := by omega
      simp [shift, subst, hc, hc', hj, hne]
      omega
  | lam body ih =>
    simp only [shift, subst, ih (Nat.succ_le_succ hcj), shift_shift s (Nat.zero_le c)]
  | app func arg ihf iha => simp only [shift, subst, ihf hcj, iha hcj]

theorem shift_subst_of_ge (t : Nameless) {c j : Nat} (hjc : j ≤ c) (s : Nameless) :
    shift 1 c (subst j s t) = subst j (shift 1 c s) (shift 1 (c + 1) t) := by
  induction t generalizing c j s with
  | var i =>
    rcases Nat.lt_trichotomy i j with hlt | rfl | hgt
    · have hc : i < c := by omega
      simp [shift, subst, hlt, hc, Nat.lt_succ_of_lt hc]
    · simp [shift, subst, Nat.lt_succ_of_le hjc]
    · have hj : ¬ i < j := by omega
      have hne : i ≠ j := by omega
      by_cases hc : i < c + 1
      · have hc' : i - 1 < c := by omega
        simp [shift, subst, hj, hne, hc, hc']
      · have hc' : ¬ i - 1 < c := by omega
        have hj' : ¬ i + 1 < j := by omega
        have hne' : i + 1 ≠ j := by omega
        simp [shift, subst, hj, hne, hc, hc', hj', hne']
        omega
  | lam body ih =>
    simp only [shift, subst, ih (Nat.succ_le_succ hjc), shift_shift s (Nat.zero_le c)]
  | app func arg ihf iha => simp only [shift, subst, ihf hjc, iha hjc]

/-- Two substitutions exchanged: the outer one also reaches the replacement of the inner one. -/
theorem subst_subst (t : Nameless) {i j : Nat} (hij : i ≤ j) (a s : Nameless) :
    subst j s (subst i a t) = subst i (subst j s a) (subst (j + 1) (shift 1 i s) t) := by
  induction t generalizing i j a s with
  | var k =>
    rcases Nat.lt_trichotomy k i with hlt | rfl | hgt
    · have hj : k < j := by omega
      simp [subst, hlt, hj, Nat.lt_succ_of_lt hj]
    · simp [subst, Nat.lt_succ_of_le hij]
    · have hi : ¬ k < i := by omega
      have hne : k ≠ i := by omega
      rcases Nat.lt_trichotomy k (j + 1) with hlt' | rfl | hgt'
      · have hj : k - 1 < j := by omega
        simp [subst, hi, hne, hj, hlt']
      · simp [subst, hi, hne, subst_shift_self]
      · have hj : ¬ k - 1 < j := by omega
        have hnej : k - 1 ≠ j := by omega
        have hj' : ¬ k < j + 1 := by omega
        have hnej' : k ≠ j + 1 := by omega
        have hi' : ¬ k - 1 < i := by omega
        have hnei' : k - 1 ≠ i := by omega
        simp [subst, hi, hne, hj, hnej, hj', hnej', hi', hnei']
  | lam body ih =>
    simp only [subst, ih (Nat.succ_le_succ hij), shift_shift s (Nat.zero_le i),
      shift_subst_of_le a (Nat.zero_le j)]
  | app func arg ihf iha => simp only [subst, ihf hij, iha hij]

end UntypedLambda.Nameless

import UntypedLambda.Term.Basic
import UntypedLambda.Text.Quoted
/-!
# Fresh names

A fresh name is a base name followed by marks. Minting counts the marks up from a given count and
stops at the first candidate that need not be avoided. Counts below one stand for no mark at all.
-/

namespace UntypedLambda

/-- The base name followed by so many marks; none for a count below one. -/
def marked (base : Name) (count : Int) : Name :=
  base ++ String.ofList (List.replicate count.toNat Text.singleQuote)

theorem length_marked (base : Name) (count : Int) :
    (marked base count).length = base.length + count.toNat := by
  simp [marked, String.length_append]

theorem countP_lt_countP {α : Type} {p q : α → Bool} {l : List α} {a : α}
    (himp : ∀ b ∈ l, p b → q b) (ha : a ∈ l) (hq : q a) (hp : ¬p a) :
    l.countP p < l.countP q := by
  induction l with
  | nil => simp at ha
  | cons b l ih =>
    have htail : ∀ c ∈ l, p c → q c := fun c hc => himp c (List.mem_cons_of_mem b hc)
    have hle := List.countP_mono_left htail
    simp only [List.countP_cons]
    rcases List.mem_cons.1 ha with rfl | ha
    · simp [hq, hp]
      omega
    · have hlt := ih htail ha
      have hb : (if p b then 1 else 0) ≤ if q b then 1 else 0 := by
        by_cases hpb : p b
        · simp [hpb, himp b List.mem_cons_self hpb]
        · simp [hpb]
      omega

/-- How many of the names to avoid are long enough to be met after the count: the candidates grow,
so each of them is met at most once. -/
def avoidable (base : Name) (count : Int) (avoid : List Name) : Nat :=
  avoid.countP fun name => base.length + (count + 1).toNat ≤ name.length

theorem avoidable_succ_le (base : Name) (count : Int) (avoid : List Name) :
    avoidable base (count + 1) avoid ≤ avoidable base count avoid := by
  refine List.countP_mono_left fun name _ h => ?_
  simp only [decide_eq_true_eq] at h ⊢
  omega

theorem avoidable_succ_lt {base : Name} {count : Int} {avoid : List Name} (hcount : 0 ≤ count)
    (hmem : marked base (count + 1) ∈ avoid) :
    avoidable base (count + 1) avoid < avoidable base count avoid := by
  have hlength := length_marked base (count + 1)
  refine countP_lt_countP (fun name _ h => ?_) hmem ?_ ?_
  · simp only [decide_eq_true_eq] at h ⊢
    omega
  · simp only [decide_eq_true_eq]
    omega
  · simp only [decide_eq_true_eq]
    omega

/-- The first marked variant of a base name beyond a count that is not to be avoided, and its
count. -/
def mint (base : Name) (count : Int) (avoid : List Name) : Name × Int :=
  if marked base (count + 1) ∈ avoid then mint base (count + 1) avoid
  else (marked base (count + 1), count + 1)
  termination_by (-count).toNat + avoidable base count avoid
  decreasing_by
    rename_i hmem
    have hle := avoidable_succ_le base count avoid
    by_cases hcount : 0 ≤ count
    · have hlt := avoidable_succ_lt hcount hmem
      omega
    · omega

end UntypedLambda

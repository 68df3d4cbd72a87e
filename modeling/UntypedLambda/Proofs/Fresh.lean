import Mathlib.Data.Int.Interval
import UntypedLambda.Proofs.Names
/-!
# The search for a fresh name

Minting tries the marked variants of a name one after another and takes the first that is not to be
avoided. As long as the count is not positive the candidate is the bare name again and again, so neither
the candidates nor their lengths say how long this goes on. Beyond that no two candidates are the same:
all that are passed over are different names to avoid, and there are only so many of these.
-/

namespace UntypedLambda

variable {base : Name} {avoid : List Name} {count c : Int}

/-- The search goes on from a count for so many more candidates before it ends. -/
inductive Searches (base : Name) (avoid : List Name) : Int → Nat → Name × Int → Prop
  | found {count : Int} (h : marked base (count + 1) ∉ avoid) :
      Searches base avoid count 0 (marked base (count + 1), count + 1)
  | passed {count : Int} {more : Nat} {result : Name × Int} (h : marked base (count + 1) ∈ avoid)
      (hmore : Searches base avoid (count + 1) more result) :
      Searches base avoid count (more + 1) result

theorem exists_searches (base : Name) (count : Int) (avoid : List Name) :
    ∃ more, Searches base avoid count more (mint base count avoid) ∧
      (mint base count avoid).2 = count + more + 1 := by
  fun_induction mint base count avoid with
  | case1 count hmem ih =>
    obtain ⟨more, hsearches, hcount⟩ := ih
    refine ⟨more + 1, .passed hmem hsearches, ?_⟩
    push_cast
    omega
  | case2 count hmem => exact ⟨0, .found hmem, by simp⟩

theorem mem_avoid_of_lt_mint (hcount : count < c) (hmint : c < (mint base count avoid).2) :
    marked base c ∈ avoid := by
  fun_induction mint base count avoid with
  | case1 count hmem ih =>
    by_cases hnext : c = count + 1
    · rw [hnext]
      exact hmem
    · exact ih (by omega) hmint
  | case2 count hmem =>
    have hle : c < count + 1 := hmint
    omega

theorem mint_isLeast (base : Name) (count : Int) (avoid : List Name) :
    IsLeast {c | count < c ∧ marked base c ∉ avoid} (mint base count avoid).2 := by
  refine ⟨⟨lt_mint_snd base count avoid, ?_⟩, ?_⟩
  · rw [← mint_fst]
    exact mint_notMem base count avoid
  · intro c hc
    by_contra hlt
    exact hc.2 (mem_avoid_of_lt_mint hc.1 (not_le.1 hlt))

/-- The candidates with a mark that are passed over are as many different names to avoid. -/
theorem mint_snd_le (base : Name) (count : Int) (avoid : List Name) :
    (mint base count avoid).2 ≤ max count 0 + avoid.toFinset.card + 1 := by
  have hmem : ∀ c ∈ Finset.Ioo (max count 0) (mint base count avoid).2,
      marked base c ∈ avoid.toFinset := by
    intro c hc
    obtain ⟨hlow, hhigh⟩ := Finset.mem_Ioo.1 hc
    rw [List.mem_toFinset]
    exact mem_avoid_of_lt_mint (by omega) hhigh
  have hinj : Set.InjOn (marked base) (Finset.Ioo (max count 0) (mint base count avoid).2) := by
    intro c hc d hd heq
    have hlow := (Finset.mem_Ioo.1 (Finset.mem_coe.1 hc)).1
    have hlow' := (Finset.mem_Ioo.1 (Finset.mem_coe.1 hd)).1
    exact marked_inj heq (by omega) (by omega)
  have hcard := Finset.card_le_card_of_injOn (marked base) hmem hinj
  rw [Int.card_Ioo] at hcard
  omega

theorem toList_marked (base : Name) (count : Int) :
    (marked base count).toList =
      base.toList ++ List.replicate (max count 0).toNat Text.singleQuote := by
  rw [marked, String.toList_append, String.toList_ofList]
  congr 2
  omega

/-- Minting ends at the first marked name beyond the count that is not to be avoided, after no more
candidates than there are names to avoid. -/
theorem mint_first_free (base : Name) (count : Int) (avoid : List Name) :
    ∃ (candidate : Name) (c : Int) (more : Nat), mint base count avoid = (candidate, c) ∧
      Searches base avoid count more (candidate, c) ∧ c = count + more + 1 ∧
      count < c ∧ candidate = marked base c ∧
      (∀ k, (marked base k).toList =
        base.toList ++ List.replicate (max k 0).toNat Text.singleQuote) ∧
      candidate ∉ avoid ∧ (∀ k, count < k → k < c → marked base k ∈ avoid) ∧
      c ≤ max count 0 + avoid.toFinset.card + 1 := by
  obtain ⟨more, hsearches, hcount⟩ := exists_searches base count avoid
  exact ⟨_, _, more, rfl, hsearches, hcount, lt_mint_snd base count avoid, mint_fst base count avoid,
    toList_marked base, mint_notMem base count avoid, fun k => mem_avoid_of_lt_mint,
    mint_snd_le base count avoid⟩

/-- Below zero the bare name is tried three times, and the first mark is not enough. -/
theorem mint_first_free_negative :
    ∃ more, Searches "x" ["x'", "x"] (-3) more ("x''", 2) ∧ more = 4 ∧
      marked "x" (-2) ∈ ["x'", "x"] := by
  have hmint : mint "x" (-3) ["x'", "x"] = ("x''", 2) := by decide +kernel
  obtain ⟨candidate, c, more, heq, hsearches, hcount, _, _, _, _, hbefore, _⟩ :=
    mint_first_free "x" (-3) ["x'", "x"]
  cases hmint.symm.trans heq
  exact ⟨more, hsearches, by omega, hbefore (-2) (by decide) (by decide)⟩

end UntypedLambda

import UntypedLambda.Proofs.Strategy.Faults
import UntypedLambda.Proofs.Strategy.Step
import UntypedLambda.Strategy.Evaluate
import UntypedLambda.Strategy.Trace
/-!
# Three ways to follow a run

A strategy has one run from a term, which goes on step by step until it halts or a step fails. Traces,
evaluation and evaluation within a budget all follow that run, on every term, and differ only in where
they stop looking. Each evaluation can be moved along the run by as many steps as it may still take;
what it does then is what the strategy does at the one term it has been moved to.
-/

namespace UntypedLambda

/-- A fault with another budget, if it is a step limit. -/
def Fault.withBudget (budget : Int) : Fault → Fault
  | .stepLimit name _ last => .stepLimit name budget last
  | fault => fault

namespace Strategy

variable {S : Strategy} {t u s r : Term} {fault : Fault} {k : Nat}

/-! ### The run -/

/-- Within a number of steps a run halts, fails, or goes on. -/
theorem run_cases (S : Strategy) (n : Nat) (t : Term) :
    (∃ k ≤ n, ∃ r, S.Reaches k t r ∧ S.Halts r) ∨
    (∃ k ≤ n, ∃ s fault, S.Reaches k t s ∧ (S.step s).outcome = .error fault) ∨
    ∃ s u, S.Reaches n t s ∧ (S.step s).outcome = .ok (some u) := by
  induction n generalizing t with
  | zero =>
    rcases hstep : (S.step t).outcome with fault | _ | u
    · exact .inr (.inl ⟨0, Nat.le_refl 0, t, fault, .refl t, hstep⟩)
    · exact .inl ⟨0, Nat.le_refl 0, t, .refl t, hstep⟩
    · exact .inr (.inr ⟨t, u, .refl t, hstep⟩)
  | succ n ih =>
    rcases hstep : (S.step t).outcome with fault | _ | u
    · exact .inr (.inl ⟨0, Nat.zero_le _, t, fault, .refl t, hstep⟩)
    · exact .inl ⟨0, Nat.zero_le _, t, .refl t, hstep⟩
    · rcases ih u with ⟨k, hk, r, hr, hhalts⟩ | ⟨k, hk, s, fault, hs, hfault⟩ | ⟨s, v, hs, hv⟩
      · exact .inl ⟨k + 1, Nat.succ_le_succ hk, r, .head hstep hr, hhalts⟩
      · exact .inr (.inl ⟨k + 1, Nat.succ_le_succ hk, s, fault, .head hstep hs, hfault⟩)
      · exact .inr (.inr ⟨s, v, .head hstep hs, hv⟩)

/-! ### Evaluation within a budget -/

theorem evaluateWithin_of_halts (h : (S.step t).outcome = .ok none) (budget left steps : Nat) :
    (S.evaluateWithin budget left steps t).outcome = .ok t := by
  cases left <;>
  · rw [evaluateWithin, Logged.outcome_bind_of_ok h]
    rfl

theorem evaluateWithin_of_step (h : (S.step t).outcome = .ok (some u)) (budget left steps : Nat) :
    (S.evaluateWithin budget (left + 1) steps t).outcome =
      (S.evaluateWithin budget left (steps + 1) u).outcome := by
  rw [evaluateWithin, Logged.outcome_bind_of_ok h]

theorem evaluateWithin_zero_of_step (h : (S.step t).outcome = .ok (some u))
    (budget steps : Nat) :
    (S.evaluateWithin budget 0 steps t).outcome = .error (.stepLimit S.policy.name budget t) := by
  rw [evaluateWithin, Logged.outcome_bind_of_ok h]
  rfl

theorem evaluateWithin_of_fails (h : (S.step t).outcome = .error fault) (budget left steps : Nat) :
    (S.evaluateWithin budget left steps t).outcome = .error fault := by
  cases left <;> rw [evaluateWithin, Logged.outcome_bind_of_error h]

theorem Reaches.evaluateWithin_eq (h : S.Reaches k t s) (budget left steps : Nat) :
    (S.evaluateWithin budget (k + left) steps t).outcome =
      (S.evaluateWithin budget left (steps + k) s).outcome := by
  -- Each step moves one unit from what is left to the steps taken.
  induction h generalizing steps with
  | refl t => rw [Nat.zero_add, Nat.add_zero]
  | @head k t u v first _ ih =>
    rw [Nat.add_right_comm, evaluateWithin_of_step first, ih (steps + 1), Nat.add_right_comm,
      Nat.add_assoc]

theorem Reaches.evaluateWithin_of_halts (h : S.Reaches k t r) (hhalts : S.Halts r) {left : Nat}
    (hk : k ≤ left) (budget steps : Nat) :
    (S.evaluateWithin budget left steps t).outcome = .ok r := by
  obtain ⟨rest, rfl⟩ := Nat.exists_eq_add_of_le hk
  rw [h.evaluateWithin_eq, Strategy.evaluateWithin_of_halts hhalts]

theorem Reaches.evaluateWithin_of_fails (h : S.Reaches k t s)
    (hfails : (S.step s).outcome = .error fault) {left : Nat} (hk : k ≤ left) (budget steps : Nat) :
    (S.evaluateWithin budget left steps t).outcome = .error fault := by
  obtain ⟨rest, rfl⟩ := Nat.exists_eq_add_of_le hk
  rw [h.evaluateWithin_eq, Strategy.evaluateWithin_of_fails hfails]

theorem Reaches.evaluateWithin_of_step (h : S.Reaches k t s)
    (hstep : (S.step s).outcome = .ok (some u)) (budget steps : Nat) :
    (S.evaluateWithin budget k steps t).outcome =
      .error (.stepLimit S.policy.name budget s) := by
  have hmoved := h.evaluateWithin_eq budget 0 steps
  rw [Nat.add_zero] at hmoved
  rw [hmoved, evaluateWithin_zero_of_step hstep]

theorem evaluateWithin_eq_ok_iff {budget left steps : Nat} :
    (S.evaluateWithin budget left steps t).outcome = .ok r ↔
      ∃ k ≤ left, S.Reaches k t r ∧ S.Halts r := by
  constructor
  · intro h
    rcases S.run_cases left t with ⟨k, hk, s, hs, hhalts⟩ | ⟨k, hk, s, fault, hs, hfault⟩ |
      ⟨s, u, hs, hu⟩
    · rw [hs.evaluateWithin_of_halts hhalts hk] at h
      cases h
      exact ⟨k, hk, hs, hhalts⟩
    · rw [hs.evaluateWithin_of_fails hfault hk] at h
      cases h
    · rw [hs.evaluateWithin_of_step hu] at h
      cases h
  · rintro ⟨k, hk, hr, hhalts⟩
    exact hr.evaluateWithin_of_halts hhalts hk budget steps

theorem evaluateWithin_eq_error_iff {budget left steps : Nat} :
    (S.evaluateWithin budget left steps t).outcome = .error fault ↔
      (∃ k ≤ left, ∃ s, S.Reaches k t s ∧ (S.step s).outcome = .error fault) ∨
      ∃ s u, S.Reaches left t s ∧ (S.step s).outcome = .ok (some u) ∧
        fault = .stepLimit S.policy.name budget s := by
  constructor
  · intro h
    rcases S.run_cases left t with ⟨k, hk, s, hs, hhalts⟩ | ⟨k, hk, s, fault', hs, hfault⟩ |
      ⟨s, u, hs, hu⟩
    · rw [hs.evaluateWithin_of_halts hhalts hk] at h
      cases h
    · rw [hs.evaluateWithin_of_fails hfault hk] at h
      cases h
      exact .inl ⟨k, hk, s, hs, hfault⟩
    · rw [hs.evaluateWithin_of_step hu] at h
      cases h
      exact .inr ⟨s, u, hs, hu, rfl⟩
  · rintro (⟨k, hk, s, hs, hfault⟩ | ⟨s, u, hs, hu, rfl⟩)
    · exact hs.evaluateWithin_of_fails hfault hk budget steps
    · exact hs.evaluateWithin_of_step hu budget steps

theorem reaches_of_stepLimit {name : String} {budget left steps : Nat} {limit : Int}
    (h : (S.evaluateWithin budget left steps t).outcome = .error (.stepLimit name limit s)) :
    S.Reaches left t s := by
  rcases evaluateWithin_eq_error_iff.1 h with ⟨k, _, u, _, hfault⟩ | ⟨u, v, hu, _, hlimit⟩
  · exact absurd hfault (S.unlimited_step u _ _ _)
  · cases hlimit
    exact hu

/-- The budget and the steps taken before show in nothing but the step limit. -/
theorem evaluateWithin_withBudget (S : Strategy) (budget left steps : Nat) (t : Term) :
    (S.evaluateWithin budget left steps t).outcome =
      (S.evaluateWithin left left 0 t).outcome.mapError (Fault.withBudget budget) := by
  rcases S.run_cases left t with ⟨k, hk, s, hs, hhalts⟩ | ⟨k, hk, s, fault, hs, hfault⟩ |
    ⟨s, u, hs, hu⟩
  · rw [hs.evaluateWithin_of_halts hhalts hk, hs.evaluateWithin_of_halts hhalts hk]
    rfl
  · rw [hs.evaluateWithin_of_fails hfault hk, hs.evaluateWithin_of_fails hfault hk]
    have hlimit := S.unlimited_step s
    rw [hfault] at hlimit
    cases fault with
    | stepLimit name budget last => exact absurd rfl (hlimit name budget last)
    | _ => rfl
  · rw [hs.evaluateWithin_of_step hu, hs.evaluateWithin_of_step hu]
    rfl

/-! ### Evaluation without a budget -/

theorem evaluateFrom_of_halts (h : (S.step t).outcome = .ok none) (fuel steps : Nat) :
    (S.evaluateFrom (fuel + 1) steps t).outcome = .ok (some t) := by
  rw [evaluateFrom, Logged.outcome_bind_of_ok h]
  rfl

theorem evaluateFrom_of_step (h : (S.step t).outcome = .ok (some u)) (fuel steps : Nat) :
    (S.evaluateFrom (fuel + 1) steps t).outcome =
      (S.evaluateFrom fuel (steps + 1) u).outcome := by
  rw [evaluateFrom, Logged.outcome_bind_of_ok h]

theorem evaluateFrom_of_fails (h : (S.step t).outcome = .error fault) (fuel steps : Nat) :
    (S.evaluateFrom (fuel + 1) steps t).outcome = .error fault := by
  rw [evaluateFrom, Logged.outcome_bind_of_error h]

theorem Reaches.evaluateFrom_eq (h : S.Reaches k t s) (fuel steps : Nat) :
    (S.evaluateFrom (k + fuel) steps t).outcome =
      (S.evaluateFrom fuel (steps + k) s).outcome := by
  induction h generalizing steps with
  | refl t => rw [Nat.zero_add, Nat.add_zero]
  | @head k t u v first _ ih =>
    rw [Nat.add_right_comm, evaluateFrom_of_step first, ih (steps + 1), Nat.add_right_comm,
      Nat.add_assoc]

theorem evaluateFrom_eq_some_iff {fuel steps : Nat} :
    (S.evaluateFrom fuel steps t).outcome = .ok (some r) ↔
      ∃ k < fuel, S.Reaches k t r ∧ S.Halts r := by
  constructor
  · intro h
    induction fuel generalizing steps t with
    | zero => cases h
    | succ fuel ih =>
      rcases hstep : (S.step t).outcome with fault | _ | u
      · rw [evaluateFrom_of_fails hstep] at h
        cases h
      · rw [evaluateFrom_of_halts hstep] at h
        cases h
        exact ⟨0, Nat.zero_lt_succ _, .refl _, hstep⟩
      · rw [evaluateFrom_of_step hstep] at h
        obtain ⟨k, hk, hr, hhalts⟩ := ih h
        exact ⟨k + 1, Nat.succ_lt_succ hk, .head hstep hr, hhalts⟩
  · rintro ⟨k, hk, hr, hhalts⟩
    obtain ⟨rest, rfl⟩ := Nat.exists_eq_add_of_lt hk
    rw [Nat.add_assoc, hr.evaluateFrom_eq, evaluateFrom_of_halts hhalts]

theorem Reaches.evaluations_of_halts (h : S.Reaches k t r) (hhalts : S.Halts r) :
    (S.evaluateBounded k t).outcome = .ok r ∧ (S.evaluate (k + 1) t).outcome = .ok (some r) :=
  ⟨h.evaluateWithin_of_halts hhalts (Nat.le_refl k) k 0,
    evaluateFrom_eq_some_iff.2 ⟨k, Nat.lt_succ_self k, h, hhalts⟩⟩

/-- Evaluation comes to an end after exactly so many steps: it has its answer as soon as it may make
one attempt to step more than that, and not before. -/
def EndsAfter (S : Strategy) (n : Nat) (t r : Term) : Prop :=
  ∀ fuel, (S.evaluate fuel t).outcome = .ok (if n < fuel then some r else none)

theorem Reaches.evaluateFrom_of_le (h : S.Reaches k t s) {fuel : Nat} (hfuel : fuel ≤ k)
    (steps : Nat) : (S.evaluateFrom fuel steps t).outcome = .ok none := by
  induction h generalizing fuel steps with
  | refl t =>
    obtain rfl : fuel = 0 := Nat.le_zero.1 hfuel
    rfl
  | head first _ ih =>
    cases fuel with
    | zero => rfl
    | succ fuel =>
      rw [evaluateFrom_of_step first]
      exact ih (Nat.le_of_succ_le_succ hfuel) (steps + 1)

theorem endsAfter_iff {n : Nat} : S.EndsAfter n t r ↔ S.Reaches n t r ∧ S.Halts r := by
  constructor
  · intro h
    have hanswer := h (n + 1)
    rw [if_pos (Nat.lt_succ_self n)] at hanswer
    obtain ⟨k, hk, hreaches, hhalts⟩ := evaluateFrom_eq_some_iff.1 hanswer
    -- With fuel for `n` attempts there is no answer yet, so the run is not shorter.
    have hlater : ¬ k < n := by
      intro hearlier
      have hnone := h n
      rw [if_neg (Nat.lt_irrefl n), evaluate,
        evaluateFrom_eq_some_iff.2 ⟨k, hearlier, hreaches, hhalts⟩] at hnone
      cases hnone
    obtain rfl : k = n := by omega
    exact ⟨hreaches, hhalts⟩
  · rintro ⟨hreaches, hhalts⟩ fuel
    by_cases hfuel : n < fuel
    · rw [if_pos hfuel]
      exact evaluateFrom_eq_some_iff.2 ⟨n, hfuel, hreaches, hhalts⟩
    · rw [if_neg hfuel]
      exact hreaches.evaluateFrom_of_le (Nat.le_of_not_lt hfuel) 0

/-! ### Traces -/

/-- A list holds the first terms of a run: as many as were asked for, or all if they are fewer. -/
def Begins (S : Strategy) (t : Term) (count : Nat) (terms : List Term) : Prop :=
  ∀ i s, terms[i]? = some s ↔ i < count ∧ S.Reaches i t s

theorem Begins.reaches {count i : Nat} {terms : List Term} (h : S.Begins t count terms)
    (hi : i < terms.length) : S.Reaches i t terms[i] :=
  ((h i terms[i]).1 (List.getElem?_eq_getElem hi)).2

theorem Begins.exists_reaches {count : Nat} {terms : List Term} (h : S.Begins t count terms)
    (hs : s ∈ terms) : ∃ i, S.Reaches i t s := by
  obtain ⟨i, hi, rfl⟩ := List.mem_iff_getElem.1 hs
  exact ⟨i, h.reaches hi⟩

/-- What holds from each term of a run to all later ones holds along a list of its first terms. -/
theorem Begins.pairwise {count : Nat} {terms : List Term} (h : S.Begins t count terms)
    {R : Term → Term → Prop}
    (hR : ∀ {i k u v}, S.Reaches i t u → S.Reaches k u v → R u v) : terms.Pairwise R := by
  rw [List.pairwise_iff_getElem]
  intro i j hi hj hlt
  have hu := h.reaches hi
  exact hR hu (hu.rest (h.reaches hj) (Nat.le_of_lt hlt))

theorem begins_one (S : Strategy) (t : Term) : S.Begins t 1 [t] := by
  intro i s
  cases i with
  | zero => simp [reaches_zero_iff, eq_comm]
  | succ i => simp

theorem begins_of_stops (h : ∀ u, (S.step t).outcome ≠ .ok (some u)) (count : Nat) :
    S.Begins t (count + 1) [t] := by
  intro i s
  cases i with
  | zero => simp [reaches_zero_iff, eq_comm]
  | succ i =>
    have hstuck : ¬ S.Reaches (i + 1) t s := by
      rw [reaches_succ_iff]
      rintro ⟨u, hu, _⟩
      exact h u hu
    simp [hstuck]

theorem begins_of_step (h : (S.step t).outcome = .ok (some u)) {count : Nat} {terms : List Term}
    (hterms : S.Begins u count terms) : S.Begins t (count + 1) (t :: terms) := by
  intro i s
  cases i with
  | zero => simp [reaches_zero_iff, eq_comm]
  | succ i => simp [reaches_succ_iff, h, hterms i s]

end Strategy

namespace Trace

variable {S : Strategy} {t u : Term} {fault : Fault}

theorem take_start (S : Strategy) (count : Nat) (t : Term) :
    (take S (count + 1) (.start t)).outcome = (take S count (.reached t)).outcome.map (t :: ·) :=
  rfl

theorem take_reached_of_halts (h : (S.step t).outcome = .ok none) (count : Nat) :
    (take S (count + 1) (.reached t)).outcome = .ok [] := by
  rw [take, next]
  simp only [h]
  rw [Logged.outcome_bind_of_ok h]
  rfl

theorem take_reached_of_step (h : (S.step t).outcome = .ok (some u)) (count : Nat) :
    (take S (count + 1) (.reached t)).outcome =
      (take S count (.reached u)).outcome.map (u :: ·) := by
  rw [take, next]
  simp only [h]
  rw [Logged.outcome_bind_of_ok h]
  rfl

theorem take_reached_of_fails (h : (S.step t).outcome = .error fault) (count : Nat) :
    (take S (count + 1) (.reached t)).outcome = .error fault := by
  rw [take, next]
  simp only [h]
  rw [Logged.outcome_bind_of_error h]

theorem log_take_reached_of_stops (h : ∀ u, (S.step t).outcome ≠ .ok (some u)) (count : Nat) :
    (take S (count + 1) (.reached t)).log = (S.step t).log := by
  rw [take, next]
  rcases hstep : (S.step t).outcome with fault | _ | u
  · simp only
    rw [Logged.log_bind_of_error hstep]
  · simp only
    rw [Logged.log_bind_of_ok hstep, Logged.log_pure, List.append_nil]
  · exact absurd hstep (h u)

theorem log_take_reached_of_step (h : (S.step t).outcome = .ok (some u)) (count : Nat) :
    (take S (count + 1) (.reached t)).log =
      (S.step t).log ++ (take S count (.reached u)).log := by
  rw [take, next]
  simp only [h]
  rw [Logged.log_bind_of_ok h, Logged.log_map]

/-- Terms were pulled at the cost of one step from each of the given terms: what these steps tell is
told, and one of them that fails is the end. -/
structure Pulled (S : Strategy) (stepped terms : List Term) (pulled : Logged (List Term)) : Prop where
  log_eq : pulled.log = stepped.flatMap fun s => (S.step s).log
  of_goes : (∀ s ∈ stepped, ∀ fault, (S.step s).outcome ≠ .error fault) → pulled.outcome = .ok terms
  of_fails : ∀ s ∈ stepped, ∀ fault, (S.step s).outcome = .error fault →
    pulled.outcome = .error fault

theorem pulled_of_stops (h : ∀ u, (S.step t).outcome ≠ .ok (some u)) (count : Nat) :
    Pulled S [t] [] (take S (count + 1) (.reached t)) := by
  refine ⟨?_, ?_, ?_⟩
  · rw [log_take_reached_of_stops h, List.flatMap_singleton]
  · intro hgoes
    rcases hstep : (S.step t).outcome with fault | _ | u
    · exact absurd hstep (hgoes t List.mem_cons_self fault)
    · exact take_reached_of_halts hstep count
    · exact absurd hstep (h u)
  · intro s hs fault hfault
    obtain rfl : s = t := List.mem_singleton.1 hs
    exact take_reached_of_fails hfault count

theorem pulled_of_step (h : (S.step t).outcome = .ok (some u)) {stepped terms : List Term}
    {count : Nat} (hpulled : Pulled S stepped terms (take S count (.reached u))) :
    Pulled S (t :: stepped) (u :: terms) (take S (count + 1) (.reached t)) := by
  refine ⟨?_, ?_, ?_⟩
  · rw [log_take_reached_of_step h, hpulled.log_eq, List.flatMap_cons]
  · intro hgoes
    rw [take_reached_of_step h, hpulled.of_goes fun s hs => hgoes s (List.mem_cons_of_mem t hs)]
    rfl
  · intro s hs fault hfault
    rcases List.mem_cons.1 hs with rfl | hs
    · exact take_reached_of_fails hfault count
    · rw [take_reached_of_step h, hpulled.of_fails s hs fault hfault]
      rfl

theorem exists_pulled_reached (S : Strategy) (count : Nat) (t : Term) :
    ∃ rest, S.Begins t (count + 1) (t :: rest) ∧
      Pulled S ((t :: rest).take count) rest (take S count (.reached t)) := by
  induction count generalizing t with
  | zero => exact ⟨[], S.begins_one t, rfl, fun _ => rfl, by simp⟩
  | succ count ih =>
    by_cases hgoes : ∃ u, (S.step t).outcome = .ok (some u)
    · obtain ⟨u, hstep⟩ := hgoes
      obtain ⟨rest, hbegins, hpulled⟩ := ih u
      exact ⟨u :: rest, Strategy.begins_of_step hstep hbegins, pulled_of_step hstep hpulled⟩
    · -- The run is over at `t`, whether it halts there or fails.
      rw [not_exists] at hgoes
      refine ⟨[], Strategy.begins_of_stops hgoes (count + 1), ?_⟩
      rw [List.take_succ_cons, List.take_nil]
      exact pulled_of_stops hgoes count

theorem exists_pulled_start (S : Strategy) (count : Nat) (t : Term) :
    ∃ terms, S.Begins t count terms ∧
      Pulled S (terms.take (count - 1)) terms (take S count (.start t)) := by
  cases count with
  | zero => exact ⟨[], by simp [Strategy.Begins], rfl, fun _ => rfl, by simp⟩
  | succ count =>
    obtain ⟨rest, hbegins, hpulled⟩ := exists_pulled_reached S count t
    refine ⟨t :: rest, hbegins, hpulled.log_eq, ?_, ?_⟩
    · intro hgoes
      rw [take_start, hpulled.of_goes hgoes]
      rfl
    · intro s hs fault hfault
      rw [take_start, hpulled.of_fails s hs fault hfault]
      rfl

theorem exists_take_of_reaches {n : Nat} {s : Term} (h : S.Reaches n t s) :
    ∃ terms, S.Begins t (n + 1) terms ∧ terms.length = n + 1 ∧
      (take S (n + 1) (.start t)).outcome = .ok terms := by
  obtain ⟨terms, hbegins, hpulled⟩ := exists_pulled_start S (n + 1) t
  have hlast : terms[n]? = some s := (hbegins n s).2 ⟨Nat.lt_succ_self n, h⟩
  have hlength : terms.length = n + 1 := by
    apply Nat.le_antisymm _ (List.getElem?_eq_some_iff.1 hlast).1
    by_contra hlong
    have hbeyond := (hbegins (n + 1) _).1 (List.getElem?_eq_getElem (Nat.lt_of_not_le hlong))
    exact Nat.lt_irrefl _ hbeyond.1
  refine ⟨terms, hbegins, hlength, hpulled.of_goes ?_⟩
  -- Every term before the last has a next one, so its step does not fail.
  intro u hu fault hfault
  obtain ⟨i, hi, rfl⟩ := List.mem_take_iff_getElem.1 hu
  have hlt : i < n := Nat.lt_of_lt_of_le hi (Nat.min_le_left _ _)
  have hrest := (hbegins.reaches (Nat.lt_min.1 hi).2).rest h (Nat.le_of_lt hlt)
  obtain ⟨k, hk⟩ := Nat.exists_eq_add_of_lt hlt
  rw [show n - i = k + 1 by omega, Strategy.reaches_succ_iff] at hrest
  obtain ⟨next, hnext, _⟩ := hrest
  cases hfault.symm.trans hnext

theorem exists_take_of_wellFormed (S : Strategy) (ht : t.WellFormed) (count : Nat) :
    ∃ terms, S.Begins t count terms ∧ (take S count (.start t)).outcome = .ok terms := by
  obtain ⟨terms, hbegins, hpulled⟩ := exists_pulled_start S count t
  refine ⟨terms, hbegins, hpulled.of_goes ?_⟩
  intro s hs fault hfault
  obtain ⟨i, hreaches⟩ := hbegins.exists_reaches (List.mem_of_mem_take hs)
  obtain ⟨next, hnext⟩ := S.exists_step (hreaches.wellFormed ht)
  cases hfault.symm.trans hnext

end Trace

/-- Traces, evaluation and evaluation within a budget follow one run, whatever the term, and differ
only in where they stop looking. -/
theorem Strategy.evaluations_follow_run (S : Strategy) (t : Term) :
    (∀ (n : Nat) (r : Term), (S.evaluateBounded n t).outcome = .ok r ↔
      ∃ k ≤ n, S.Reaches k t r ∧ S.Halts r) ∧
    (∀ (n : Nat) (fault : Fault), (S.evaluateBounded n t).outcome = .error fault ↔
      (∃ k ≤ n, ∃ s, S.Reaches k t s ∧ (S.step s).outcome = .error fault) ∨
      ∃ s u, S.Reaches n t s ∧ (S.step s).outcome = .ok (some u) ∧
        fault = .stepLimit S.policy.name n s) ∧
    (∀ n : Int, n < 0 → S.evaluateBounded n t = .fail .negativeBudget) ∧
    (∀ (k : Nat) (s : Term), S.Reaches k t s →
      ((∃ fuel, (S.evaluate fuel t).outcome = .ok (some s)) ↔
        ∀ n : Nat, k ≤ n → (S.evaluateBounded n t).outcome = .ok s)) ∧
    (∀ (fuel : Nat) (r : Term), (S.evaluate fuel t).outcome = .ok (some r) →
      (∃ k, S.Reaches k t r) ∧ S.Halts r ∧
        ∀ fuel', (S.evaluate (fuel' + 1) r).outcome = .ok (some r)) ∧
    (∀ count, ∃ terms, S.Begins t count terms ∧
      Trace.Pulled S (terms.take (count - 1)) terms (Trace.take S count (.start t))) ∧
    ∀ (m n : Nat) (u : Term),
      (S.evaluateBounded m t).outcome = .error (.stepLimit S.policy.name m u) →
      (S.evaluateBounded (m + n : Nat) t).outcome =
        (S.evaluateBounded n u).outcome.mapError (Fault.withBudget (m + n : Nat)) := by
  refine ⟨?_, ?_, ?_, ?_, ?_, fun count => Trace.exists_pulled_start S count t, ?_⟩
  · intro n r
    exact evaluateWithin_eq_ok_iff
  · intro n fault
    exact evaluateWithin_eq_error_iff
  · intro n hn
    cases n with
    | ofNat n => exact absurd hn (Int.not_lt.2 (Int.natCast_nonneg n))
    | negSucc n => rfl
  · intro k s hs
    constructor
    · rintro ⟨fuel, hfuel⟩ n hn
      obtain ⟨_, _, _, hhalts⟩ := evaluateFrom_eq_some_iff.1 hfuel
      exact hs.evaluateWithin_of_halts hhalts hn n 0
    · intro hall
      obtain ⟨j, _, hj, hhalts⟩ := evaluateWithin_eq_ok_iff.1 (hall k (Nat.le_refl k))
      exact ⟨j + 1, evaluateFrom_eq_some_iff.2 ⟨j, Nat.lt_succ_self j, hj, hhalts⟩⟩
  · intro fuel r hr
    obtain ⟨k, _, hk, hhalts⟩ := evaluateFrom_eq_some_iff.1 hr
    exact ⟨⟨k, hk⟩, hhalts, fun fuel' => evaluateFrom_of_halts hhalts fuel' 0⟩
  · intro m n u hlimit
    have hreaches : S.Reaches m t u := reaches_of_stepLimit hlimit
    have hmoved : (S.evaluateBounded (m + n : Nat) t).outcome =
        (S.evaluateWithin (m + n) n (0 + m) u).outcome := hreaches.evaluateWithin_eq (m + n) n 0
    rw [hmoved, evaluateWithin_withBudget]
    rfl

/-- The budget is used up without a fault, and the step that is tried beyond it fails the evaluation. -/
theorem Strategy.evaluations_follow_run_discarded_step :
    ((⟨.lazy, .stop⟩ : Strategy).evaluateBounded 1
      (.app (.app (.lam "y" (.var "y")) (.lam "x" (.var "x"))) (.foreign .bare))).outcome =
        .error (.stray .freeVars .bare) := by
  have hfirst : ((⟨.lazy, .stop⟩ : Strategy).step
      (.app (.app (.lam "y" (.var "y")) (.lam "x" (.var "x"))) (.foreign .bare))).outcome =
        .ok (some (.app (.lam "x" (.var "x")) (.foreign .bare))) := by decide +kernel
  have hsecond : ((⟨.lazy, .stop⟩ : Strategy).step
      (.app (.lam "x" (.var "x")) (.foreign .bare))).outcome =
        .error (.stray .freeVars .bare) := by decide +kernel
  refine (((⟨.lazy, .stop⟩ : Strategy).evaluations_follow_run _).2.1 1 _).2 ?_
  exact .inl ⟨1, Nat.le_refl 1, _, .head hfirst (.refl _), hsecond⟩

end UntypedLambda

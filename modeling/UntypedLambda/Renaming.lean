import UntypedLambda.Fresh
import UntypedLambda.Log
import UntypedLambda.Term.Formation
import UntypedLambda.Term.Names
/-!
# Renaming binders

To rename a binder its name is retired from the body: occurrences that belong to the binder take its
new name, and every binder further down that reuses the old name is given a marked name of its own.
The count of marks runs on from left to right, so no two of these binders share a name.
-/

namespace UntypedLambda

inductive RetireTask where
  /-- Retire the name from a term, where free occurrences take the current name. -/
  | visit (t : Term) (current : Name)
  /-- Make an abstraction of the last result. -/
  | bind (binder : Name)
  /-- Make an application of the last two results. -/
  | join
  deriving DecidableEq

/-- A task weighs more than the tasks that take its place. -/
def RetireTask.weight : RetireTask → Nat
  | visit t _ => 2 * t.size
  | bind _ => 1
  | join => 1

namespace Term

/-- Carries out the tasks that are left, with the results so far, the last one first, and the count
of marks reached. A binder of the name is minted before its body is entered. -/
def retireAll (name : Name) (avoid : List Name) :
    List RetireTask → List Term → Int → Except Fault (Term × Int)
  | [], result :: _, count => .ok (result, count)
  | .visit (var n) current :: tasks, results, count =>
    if n = name then do retireAll name avoid tasks ((← formVar current) :: results) count
    else retireAll name avoid tasks (var n :: results) count
  | .visit (lam n body) current :: tasks, results, count =>
    if n = name then
      let minted := mint name count avoid
      retireAll name avoid (.visit body minted.1 :: .bind minted.1 :: tasks) results minted.2
    else retireAll name avoid (.visit body current :: .bind n :: tasks) results count
  | .visit (app func arg) current :: tasks, results, count =>
    retireAll name avoid (.visit func current :: .visit arg current :: .join :: tasks) results count
  | .visit (foreign leaf) _ :: _, _, _ => .error (.stray .retiring leaf)
  | .bind binder :: tasks, body :: results, count =>
    retireAll name avoid tasks (lam binder body :: results) count
  | .join :: tasks, arg :: func :: results, count =>
    retireAll name avoid tasks (app func arg :: results) count
  | _, _, _ => .error .noResult
  termination_by tasks => tasks.foldr (fun task total => task.weight + total) 0
  decreasing_by
    all_goals simp only [List.foldr_cons, RetireTask.weight, size]
    all_goals omega

/-- Retires a name from a term, and gives the count of marks reached. -/
def retire (name : Name) (avoid : List Name) (t : Term) (current : Name) (count : Int) :
    Except Fault (Term × Int) :=
  retireAll name avoid [.visit t current] [] count

/-- A new name for the binder of an abstraction, and the body under it. The new name is none of those
to avoid, does not occur in the body and is not the old one. -/
def refresh (binder : Name) (body : Term) (avoid : List Name) : Except Fault (Name × Term) := do
  let names ← body.allNames
  let avoid := avoid ++ names ++ [binder]
  let minted := mint binder 0 avoid
  let (body, _) ← body.retire binder avoid minted.1 minted.2
  return (minted.1, body)

/-- Renames the binder of an abstraction; nothing else has a body to rename it in. -/
def rename (avoid : List Name) : Term → Logged Term
  | lam binder body => do
    let (fresh, body) ← refresh binder body avoid
    .tell (.renamed binder fresh)
    return lam fresh body
  | t => .fail (.noPart t.kind Edge.body.word)

/-! ### Retiring a name from a term, by its parts -/

section Parts

variable (name : Name) (avoid : List Name)

/-- A visit comes out as it does alone, whatever is left to do after it. -/
theorem retireAll_visit (t : Term) (current : Name) (tasks : List RetireTask) (results : List Term)
    (count : Int) :
    retireAll name avoid (.visit t current :: tasks) results count =
      t.retire name avoid current count >>= fun retired =>
        retireAll name avoid tasks (retired.1 :: results) retired.2 := by
  induction t generalizing current tasks results count with
  | var n =>
    rw [retire, retireAll, retireAll]
    split
    · simp only [retireAll, bind_assoc]
      rfl
    · rw [retireAll]
      rfl
  | lam n body ih =>
    rw [retire, retireAll, retireAll]
    split <;>
    · simp only [ih, retireAll, bind_assoc]
      rfl
  | app func arg ihf iha =>
    rw [retire, retireAll, retireAll]
    simp only [ihf, iha, retireAll, bind_assoc]
    rfl
  | foreign leaf =>
    rw [retire, retireAll, retireAll]
    rfl

theorem retire_var (n current : Name) (count : Int) :
    (var n).retire name avoid current count =
      if n = name then do return (← formVar current, count) else .ok (var n, count) := by
  rw [retire, retireAll]
  simp only [retireAll]
  rfl

theorem retire_lam (n : Name) (body : Term) (current : Name) (count : Int) :
    (lam n body).retire name avoid current count =
      if n = name then do
        let minted := mint name count avoid
        let (body, count) ← body.retire name avoid minted.1 minted.2
        return (lam minted.1 body, count)
      else do
        let (body, count) ← body.retire name avoid current count
        return (lam n body, count) := by
  rw [retire, retireAll]
  simp only [retireAll_visit, retireAll]
  rfl

theorem retire_app (func arg : Term) (current : Name) (count : Int) :
    (app func arg).retire name avoid current count = do
      let (func, count) ← func.retire name avoid current count
      let (arg, count) ← arg.retire name avoid current count
      return (app func arg, count) := by
  rw [retire, retireAll]
  simp only [retireAll_visit, retireAll]
  rfl

theorem retire_foreign (leaf : Foreign) (current : Name) (count : Int) :
    (foreign leaf).retire name avoid current count = .error (.stray .retiring leaf) := by
  rw [retire, retireAll]

end Parts

/-! ### Renaming keeps the size -/

theorem size_retire {name : Name} {avoid : List Name} {t t' : Term} {current : Name}
    {count count' : Int} (h : t.retire name avoid current count = .ok (t', count')) :
    t'.size = t.size := by
  induction t generalizing t' current count count' with
  | var n =>
    rw [retire_var] at h
    split at h
    · obtain ⟨v, hv, h⟩ := bind_eq_ok_iff.1 h
      simp only [formVar] at hv
      split at hv <;> cases hv
      cases h
      rfl
    · cases h
      rfl
  | lam n body ih =>
    rw [retire_lam] at h
    split at h <;>
    · obtain ⟨⟨body', c⟩, hbody, h⟩ := bind_eq_ok_iff.1 h
      cases h
      simp [size, ih hbody]
  | app func arg ihf iha =>
    rw [retire_app] at h
    obtain ⟨⟨func', c⟩, hfunc, h⟩ := bind_eq_ok_iff.1 h
    obtain ⟨⟨arg', d⟩, harg, h⟩ := bind_eq_ok_iff.1 h
    cases h
    simp [size, ihf hfunc, iha harg]
  | foreign leaf =>
    rw [retire_foreign] at h
    cases h

theorem size_refresh {binder fresh : Name} {body body' : Term} {avoid : List Name}
    (h : refresh binder body avoid = .ok (fresh, body')) : body'.size = body.size := by
  obtain ⟨names, _, h⟩ := bind_eq_ok_iff.1 h
  obtain ⟨⟨retired, count⟩, hretire, h⟩ := bind_eq_ok_iff.1 h
  cases h
  exact size_retire hretire

end Term

end UntypedLambda

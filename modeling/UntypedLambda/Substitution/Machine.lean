import UntypedLambda.Substitution.Basic
/-!
# The substitution machine

A substitution runs on two stacks: the tasks that are left and the results that are not yet used.
Visiting a node puts the visits of its children before the task that puts them together again, so the
depth of a term costs no stack of its own. A run ends because every step lowers the weight of the
tasks.
-/

namespace UntypedLambda.Substitution

inductive Task where
  /-- Substitute in a term. -/
  | visit (t : Term)
  /-- Make an abstraction of the last result. -/
  | bind (binder : Name)
  /-- Make an application of the last two results. -/
  | join
  deriving DecidableEq

/-- A state of the machine: the tasks, the next one first; the results and the events, the last one
first. -/
structure State where
  tasks : List Task
  results : List Term
  log : List Event

inductive Progress where
  | running (state : State)
  | over (outcome : Except Fault Term) (log : List Event)

def State.step (σ : Substitution) : State → Progress
  | ⟨[], result :: _, log⟩ => .over (.ok result) log
  | ⟨.visit (.var name) :: tasks, results, log⟩ =>
    .running ⟨tasks, σ.onVar name :: results, log⟩
  | ⟨.visit (.lam binder body) :: tasks, results, log⟩ =>
    if σ.stopsAt binder then .running ⟨tasks, .lam binder body :: results, log⟩
    else if σ.mustRename binder then
      match σ.refresh binder body with
      | .ok (fresh, body) =>
        .running ⟨.visit body :: .bind fresh :: tasks, results, .renamed binder fresh :: log⟩
      | .error fault => .over (.error fault) log
    else .running ⟨.visit body :: .bind binder :: tasks, results, log⟩
  | ⟨.visit (.app func arg) :: tasks, results, log⟩ =>
    .running ⟨.visit func :: .visit arg :: .join :: tasks, results, log⟩
  | ⟨.visit (.foreign leaf) :: _, _, log⟩ => .over (.error (.stray .substitution leaf)) log
  | ⟨.bind binder :: tasks, body :: results, log⟩ =>
    .running ⟨tasks, .lam binder body :: results, log⟩
  | ⟨.join :: tasks, arg :: func :: results, log⟩ =>
    .running ⟨tasks, .app func arg :: results, log⟩
  | ⟨_, _, log⟩ => .over (.error .noResult) log

/-- A task weighs more than the tasks that a step puts in its place. -/
def Task.weight : Task → Nat
  | visit t => 2 * t.size
  | bind _ => 1
  | join => 1

def State.weight (state : State) : Nat :=
  state.tasks.foldr (fun task total => task.weight + total) 0

theorem State.weight_step_lt {σ : Substitution} {s s' : State} (h : s.step σ = .running s') :
    s'.weight < s.weight := by
  revert h
  fun_cases State.step σ s <;> intro h <;> cases h
  case case4 hrefresh =>
    simp [State.weight, Task.weight, Term.size, Term.size_refresh hrefresh]
    omega
  all_goals simp [State.weight, Task.weight, Term.size] <;> omega

def State.run (σ : Substitution) (s : State) : Logged Term :=
  match _h : s.step σ with
  | .running s' => s'.run σ
  | .over outcome log => ⟨log.reverse, outcome⟩
  termination_by s.weight
  decreasing_by exact State.weight_step_lt _h

def State.start (t : Term) : State :=
  ⟨[.visit t], [], []⟩

end UntypedLambda.Substitution

namespace UntypedLambda.Term

/-- Substitutes a term for the free occurrences of a name, renaming the binders that would capture
one of its free names. -/
def subst (t : Term) (target : Name) (replacement : Term) (shadowing : Shadowing) : Logged Term := do
  let σ ← Substitution.ofReplacement target replacement shadowing
  (Substitution.State.start t).run σ

end UntypedLambda.Term

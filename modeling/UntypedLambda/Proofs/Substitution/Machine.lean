import UntypedLambda.Substitution.Machine
import UntypedLambda.Substitution.Rules
/-!
# The substitution machine follows the rules

Visiting a term leaves the machine where the rules say: with their result on top of the results and
what they tell added to the log, or at an end with their fault. Everything else about substitution is
proved of the rules.
-/

namespace UntypedLambda.Substitution

variable {σ : Substitution}

theorem State.run_of_running {s s' : State} (h : s.step σ = .running s') : s.run σ = s'.run σ := by
  rw [State.run]
  split
  · rename_i hstep
    rw [h] at hstep
    cases hstep
    rfl
  · rename_i hstep
    rw [h] at hstep
    cases hstep

theorem State.run_of_over {s : State} {outcome : Except Fault Term} {log : List Event}
    (h : s.step σ = .over outcome log) : s.run σ = ⟨log.reverse, outcome⟩ := by
  rw [State.run]
  split
  · rename_i hstep
    rw [h] at hstep
    cases hstep
  · rename_i hstep
    rw [h] at hstep
    cases hstep
    rfl

/-- How the machine goes on when a visit has come out in some way. -/
def State.resume (σ : Substitution) (visited : Logged Term) (tasks : List Task)
    (results : List Term) (log : List Event) : Logged Term :=
  match visited.outcome with
  | .ok result => State.run σ ⟨tasks, result :: results, visited.log.reverse ++ log⟩
  | .error fault => ⟨log.reverse ++ visited.log, .error fault⟩

theorem State.run_bind (binder : Name) (tasks : List Task) (results : List Term) (body : Term)
    (log : List Event) :
    State.run σ ⟨.bind binder :: tasks, body :: results, log⟩ =
      resume σ (pure (.lam binder body)) tasks results log :=
  run_of_running rfl

theorem State.run_join (func : Term) (tasks : List Task) (results : List Term) (arg : Term)
    (log : List Event) :
    State.run σ ⟨.join :: tasks, arg :: func :: results, log⟩ =
      resume σ (pure (.app func arg)) tasks results log :=
  run_of_running rfl

theorem State.resume_tell (event : Event) (next : Unit → Logged Term) (tasks : List Task)
    (results : List Term) (log : List Event) :
    resume σ (.tell event >>= next) tasks results log =
      resume σ (next ()) tasks results (event :: log) := by
  have htell := Logged.outcome_tell event
  rw [resume, resume, Logged.log_bind_of_ok htell, Logged.outcome_bind_of_ok htell]
  cases (next ()).outcome <;> simp

/-- A visit whose result goes to the tasks that follow it is, together with these, a visit that comes
out as the two computations in sequence. -/
theorem State.resume_bind {tasks tasks' : List Task} {results results' : List Term}
    {next : Term → Logged Term}
    (hnext : ∀ result log, State.run σ ⟨tasks', result :: results', log⟩ =
      resume σ (next result) tasks results log) (visited : Logged Term) (log : List Event) :
    resume σ visited tasks' results' log = resume σ (visited >>= next) tasks results log := by
  cases hvisited : visited.outcome with
  | ok result =>
    rw [resume, hvisited]
    simp only
    rw [hnext, resume, resume, Logged.log_bind_of_ok hvisited, Logged.outcome_bind_of_ok hvisited]
    cases (next result).outcome <;> simp
  | error fault =>
    rw [resume, resume, Logged.log_bind_of_error hvisited, Logged.outcome_bind_of_error hvisited,
      hvisited]

/-- A visit comes out as the rules say, whatever is left to do after it. -/
theorem State.run_visit (σ : Substitution) (t : Term) (tasks : List Task) (results : List Term)
    (log : List Event) :
    State.run σ ⟨.visit t :: tasks, results, log⟩ = resume σ (σ.byRules t) tasks results log := by
  fun_induction byRules σ t generalizing tasks results log with
  | case1 name => exact run_of_running rfl
  | case2 binder body hstop =>
    apply run_of_running
    rw [step, if_pos hstop]
    rfl
  | case3 binder body hstop hrename fresh renamed hrefresh ih =>
    rw [resume_tell, ← resume_bind (run_bind fresh tasks results), ← ih]
    apply run_of_running
    rw [step, if_neg hstop, if_pos hrename, hrefresh]
  | case4 binder body hstop hrename fault hrefresh =>
    rw [resume, Logged.outcome_fail, Logged.log_fail, List.append_nil]
    apply run_of_over
    rw [step, if_neg hstop, if_pos hrename, hrefresh]
  | case5 binder body hstop hrename ih =>
    rw [← resume_bind (run_bind binder tasks results), ← ih]
    apply run_of_running
    rw [step, if_neg hstop, if_neg hrename]
  | case6 func arg ihf iha =>
    -- The argument is visited with the function's result already among the results.
    have hjoin : ∀ result log, State.run σ ⟨.visit arg :: .join :: tasks, result :: results, log⟩ =
        resume σ (σ.byRules arg >>= fun arg => pure (.app result arg)) tasks results log := by
      intro result log
      rw [iha, ← resume_bind (run_join result tasks results)]
    rw [← resume_bind hjoin, ← ihf]
    exact run_of_running rfl
  | case7 leaf =>
    rw [resume, Logged.outcome_fail, Logged.log_fail, List.append_nil]
    exact run_of_over rfl

theorem State.run_start (σ : Substitution) (t : Term) : (State.start t).run σ = σ.byRules t := by
  rw [start, run_visit, resume]
  cases houtcome : (σ.byRules t).outcome with
  | ok result =>
    simp only
    rw [run_of_over rfl]
    simp [← houtcome]
  | error fault => simp [← houtcome]

end UntypedLambda.Substitution

namespace UntypedLambda.Term

open Substitution

theorem subst_eq_byRules {σ : Substitution} {target : Name} {replacement : Term}
    {shadowing : Shadowing} (h : ofReplacement target replacement shadowing = .ok σ) (t : Term) :
    t.subst target replacement shadowing = σ.byRules t := by
  rw [subst, h, ← State.run_start]
  rfl

theorem ofReplacement_of_freeVars {target : Name} {replacement : Term} {captives : List Name}
    (h : replacement.freeVars = .ok captives) (shadowing : Shadowing) :
    ofReplacement target replacement shadowing = .ok ⟨target, replacement, captives, shadowing⟩ := by
  rw [ofReplacement, h]
  rfl

end UntypedLambda.Term

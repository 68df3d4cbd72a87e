import UntypedLambda.Renaming
/-!
# Substitutions

A substitution replaces the free occurrences of a name. What it does at an abstraction that binds the
same name is chosen by its treatment of shadowing; a binder that would capture a free name of the
replacement is renamed in any case.
-/

namespace UntypedLambda

/-- What a substitution does at an abstraction that binds the substituted name. -/
inductive Shadowing where
  /-- The binder is renamed and the body is entered, where nothing is left to replace. -/
  | rename
  /-- The abstraction is kept as it is. -/
  | stop
  deriving DecidableEq

namespace Shadowing

def word : Shadowing → String
  | rename => "rename"
  | stop => "stop"

def title : Shadowing → String
  | rename => "RENAME"
  | stop => "STOP"

def ofWord (word : String) : Except Fault Shadowing :=
  if word = rename.word then .ok rename
  else if word = stop.word then .ok stop
  else .error (.unknownShadowing word)

/-- The treatment of shadowing that is asked for; by default a substitution stops. -/
def resolve : Option String → Except Fault Shadowing
  | some word => ofWord word
  | none => .ok stop

end Shadowing

/-- A substitution that is ready to run: the name, what replaces it, the free names of the
replacement, and the treatment of shadowing. -/
structure Substitution where
  target : Name
  replacement : Term
  captives : List Name
  shadowing : Shadowing

namespace Substitution

/-- The substitution of a term for a name. The term must have no foreign leaf. -/
def ofReplacement (target : Name) (replacement : Term) (shadowing : Shadowing) :
    Except Fault Substitution := do
  return ⟨target, replacement, ← replacement.freeVars, shadowing⟩

def onVar (σ : Substitution) (name : Name) : Term :=
  if name = σ.target then σ.replacement else .var name

/-- Whether an abstraction with this binder is kept as it is. -/
def stopsAt (σ : Substitution) (binder : Name) : Bool :=
  binder = σ.target && σ.shadowing = .stop

/-- Whether a binder that is not stopped at has to be renamed. -/
def mustRename (σ : Substitution) (binder : Name) : Bool :=
  binder = σ.target || σ.captives.contains binder

theorem stopsAt_eq_true_iff {σ : Substitution} {binder : Name} :
    σ.stopsAt binder = true ↔ binder = σ.target ∧ σ.shadowing = .stop := by
  rw [stopsAt, Bool.and_eq_true, decide_eq_true_eq, decide_eq_true_eq]

theorem mustRename_eq_true_iff {σ : Substitution} {binder : Name} :
    σ.mustRename binder = true ↔ binder = σ.target ∨ binder ∈ σ.captives := by
  rw [mustRename, Bool.or_eq_true, decide_eq_true_eq, List.contains_iff_mem]

def refresh (σ : Substitution) (binder : Name) (body : Term) : Except Fault (Name × Term) :=
  Term.refresh binder body (σ.captives ++ [σ.target])

end Substitution

end UntypedLambda

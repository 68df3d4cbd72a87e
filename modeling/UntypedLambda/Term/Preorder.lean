import UntypedLambda.Term.Formation
/-!
# Preorder spelling of terms

A term is spelt as the list of its nodes, each before its children and the function of an
application before its argument. Reading goes from the last symbol to the first and keeps the terms
that still wait for a parent, the leftmost on top.
-/

namespace UntypedLambda

inductive Symbol where
  | var (name : Name)
  | lam (binder : Name)
  | app
  | foreign (leaf : Foreign)
  deriving DecidableEq

namespace Term

def spellOnto : Term → List Symbol → List Symbol
  | var name, rest => .var name :: rest
  | lam binder body, rest => .lam binder :: body.spellOnto rest
  | app func arg, rest => .app :: func.spellOnto (arg.spellOnto rest)
  | foreign leaf, rest => .foreign leaf :: rest

def spelling (t : Term) : List Symbol :=
  t.spellOnto []

end Term

namespace Symbol

/-- What one symbol makes of the terms that are spelt by the symbols after it. -/
def gather : Symbol → List Term → Option (List Term)
  | .var name, terms => some (.var name :: terms)
  | .lam binder, body :: terms => some (.lam binder body :: terms)
  | .app, func :: arg :: terms => some (.app func arg :: terms)
  | .foreign leaf, terms => some (.foreign leaf :: terms)
  | _, _ => none

def readAll (symbols : List Symbol) : Option (List Term) :=
  symbols.foldr (fun symbol terms => terms.bind symbol.gather) (some [])

def read? (symbols : List Symbol) : Option Term :=
  match readAll symbols with
  | some [t] => some t
  | _ => none

end Symbol

/-- An operand as it is handed in: the spelling of a term that is not yet formed. -/
abbrev Draft := List Symbol

def Draft.form (draft : Draft) : Except Fault Term :=
  match Symbol.read? draft with
  | some t => t.formed
  | none => .error .misspelt

end UntypedLambda

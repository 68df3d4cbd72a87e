import UntypedLambda.Fault.Basic
import UntypedLambda.Term.Listing
import UntypedLambda.Term.Pretty
/-!
# The wording of faults

Each cause has one text. Only a step limit shows a term in the usual notation, so only its wording
can itself fail, on a term that cannot be printed.
-/

namespace UntypedLambda

/-- How each walk complains of a foreign leaf, before it shows the leaf. -/
def Walk.complaint : Walk → String
  | .freeVars => "Unexpected term in free_vars: "
  | .allNames => "Unexpected term in all_names: "
  | .retiring => "Unexpected term in rewrite: "
  | .substitution => "Unexpected term in subst: "
  | .encoding => "Unexpected term in to_debruijn: "
  | .printing => "Cannot pretty-print unknown term: "

def Fault.message : Fault → Except Fault String
  | .emptyVariable => .ok "Variable names must be non-empty"
  | .emptyBinder => .ok "Binder names must be non-empty"
  | .misspelt => .ok "Symbols must spell exactly one term"
  | .negativeIndex => .ok "De Bruijn indices must be non-negative"
  | .negativeBudget => .ok "max_steps must be non-negative"
  | .unknownShadowing word => .ok (Text.quoted word ++ " is not a valid Shadowing")
  | .unknownStrategy name known =>
    .ok ("Unknown strategy " ++ Text.quoted name ++ "; expected one of " ++
      Text.quotedList (Text.sorted known))
  | .unbound name context =>
    .ok ("Unbound variable " ++ Text.quoted name ++ " in naming context " ++
      Text.quotedList context)
  | .stepLimit strategy budget last => do
    return strategy ++ " evaluation did not reach normal form within " ++ toString budget ++
      " steps:\n  last term = " ++ (← last.display)
  | .stray walk leaf => .ok (walk.complaint ++ leaf.listing)
  | .notRedex t => .ok ("Not a redex: " ++ t.listing)
  | .noPart kind part => .ok ("'" ++ kind.word ++ "' object has no attribute '" ++ part ++ "'")
  | .noResult => .ok "No result is left to take"

end UntypedLambda

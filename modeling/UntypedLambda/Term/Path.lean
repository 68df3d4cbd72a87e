import UntypedLambda.Fault.Basic
/-!
# Paths into a term

A path names a subterm by the edges that lead to it from the root. A search that may have to back
out keeps a trail instead, the path so far with the innermost edge first, and unwinds it where it
ends. A route is a path as it is asked for, in words that need not name an edge.
-/

namespace UntypedLambda

inductive Edge where
  | func
  | arg
  | body
  deriving DecidableEq

namespace Edge

def word : Edge → String
  | func => "func"
  | arg => "arg"
  | body => "body"

def ofWord? : String → Option Edge
  | "func" => some func
  | "arg" => some arg
  | "body" => some body
  | _ => none

end Edge

/-- The edges from the root to a subterm, outermost first. -/
abbrev Path := List Edge

/-- The edges from the root to a subterm, innermost first. It is stated over any type of edge, since
turning it round looks at none of them. -/
abbrev Trail (α : Type) := List α

def Trail.unwind {α : Type} (trail : Trail α) : List α :=
  trail.reverse

/-- How a message shows a path: its words as a tuple, and the empty path as the root. -/
def Path.description : Path → String
  | [] => "root"
  | [edge] => "('" ++ edge.word ++ "',)"
  | path => "(" ++ String.intercalate ", " (path.map fun edge => "'" ++ edge.word ++ "'") ++ ")"

namespace Term

def child : Term → Edge → Except Fault Term
  | app func _, .func => .ok func
  | app _ arg, .arg => .ok arg
  | lam _ body, .body => .ok body
  | t, edge => .error (.noPart t.kind edge.word)

def subterm : Term → Path → Except Fault Term
  | t, [] => .ok t
  | t, edge :: path => do (← t.child edge).subterm path

/-- A node with its child along an edge exchanged; an edge that the node lacks changes nothing. -/
def setChild : Term → Edge → Term → Term
  | app _ arg, .func, new => .app new arg
  | app func _, .arg, new => .app func new
  | lam binder _, .body, new => .lam binder new
  | t, _, _ => t

/-- The nodes that a path passes, each with the edge by which it is left, on top of those passed
before; the innermost is first. -/
def descend : Term → Path → List (Term × Edge) → Except Fault (List (Term × Edge))
  | _, [], passed => .ok passed
  | t, edge :: path, passed => do (← t.child edge).descend path ((t, edge) :: passed)

/-- Puts a term below the innermost of the nodes passed, the node that results below the next one, and
so on up to the root. -/
def rebuild (passed : List (Term × Edge)) (new : Term) : Term :=
  passed.foldl (fun new node => node.1.setChild node.2 new) new

def replaceAt (t : Term) (path : Path) (new : Term) : Except Fault Term := do
  return rebuild (← t.descend path []) new

/-! ### Replacement, edge by edge -/

theorem descend_append (t : Term) (path : Path) (passed above : List (Term × Edge)) :
    t.descend path (passed ++ above) = (t.descend path passed).map (· ++ above) := by
  induction path generalizing t passed with
  | nil => rfl
  | cons edge path ih =>
    rw [descend, descend]
    cases t.child edge with
    | ok next => exact ih next ((t, edge) :: passed)
    | error fault => rfl

theorem replaceAt_cons (t : Term) (edge : Edge) (path : Path) (new : Term) :
    t.replaceAt (edge :: path) new = do
      let replaced ← (← t.child edge).replaceAt path new
      return t.setChild edge replaced := by
  rw [replaceAt, descend]
  cases t.child edge with
  | ok next =>
    -- The node itself is passed first, so it is rebuilt last.
    show (next.descend path ([] ++ [(t, edge)]) >>= fun passed => pure (rebuild passed new)) =
      next.replaceAt path new >>= fun replaced => pure (t.setChild edge replaced)
    rw [descend_append, replaceAt]
    cases next.descend path [] with
    | ok passed =>
      show Except.ok (rebuild (passed ++ [(t, edge)]) new) = .ok (t.setChild edge (rebuild passed new))
      rw [rebuild, List.foldl_append]
      rfl
    | error fault => rfl
  | error fault => rfl

end Term

/-- A path as it is asked for, up to the first word that names no edge. The other parts of a node,
such as its name, lie on no route. -/
structure Route where
  path : Path
  stray : Option String
  deriving DecidableEq

namespace Route

def ofWords : List String → Route
  | [] => ⟨[], none⟩
  | word :: words =>
    match Edge.ofWord? word with
    | some edge => let rest := ofWords words; ⟨edge :: rest.path, rest.stray⟩
    | none => ⟨[], some word⟩

/-- Follows a route. Edges are tried in order, so the first that leads nowhere is reported, with the
sort of the node that lacks it. -/
def follow (route : Route) (t : Term) : Except Fault Term := do
  let found ← t.subterm route.path
  match route.stray with
  | none => return found
  | some word => .error (.noPart found.kind word)

def replace (route : Route) (t new : Term) : Except Fault Term := do
  let _ ← route.follow t
  t.replaceAt route.path new

end Route

end UntypedLambda

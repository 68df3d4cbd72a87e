import Mathlib.Data.List.Lex
import UntypedLambda.Term.Occurrence
import UntypedLambda.Term.Path
/-!
# Positions

A position of a term is a path that can be followed in it. At its end may stand a binder, or a variable
that is either free or belongs to a binder above it: the nearest one that has its name. A binder is told
apart from others of the same name by where it stands.

Positions are compared in the two orders in which a term can be gone through depth first. In preorder a
node comes before everything below it and in postorder after it; in both, what is below the function of
an application comes before what is below its argument. Which of some positions is the first is told for
any such order.
-/

namespace UntypedLambda

/-- The children of an application stand side by side; no other node has two. -/
def Edge.LeftOf (left right : Edge) : Prop :=
  left = .func ∧ right = .arg

instance : Std.Asymm Edge.LeftOf where
  asymm := by
    rintro _ _ ⟨rfl, rfl⟩ ⟨h, _⟩
    cases h

/-- An order on paths in which a term is gone through depth first, the function of an application before
its argument. -/
class Path.DepthFirst (before : Path → Path → Prop) : Prop extends Std.Asymm before where
  behind (edge : Edge) {path other : Path} (h : before path other) :
    before (edge :: path) (edge :: other)
  func_arg (path other : Path) : before (.func :: path) (.arg :: other)

/-- Preorder on paths: the node at the end of the first is met before the node at the end of the
second. -/
def Path.Precedes (path other : Path) : Prop :=
  List.Lex Edge.LeftOf path other

instance : Path.DepthFirst Path.Precedes where
  toAsymm := List.Lex.asymm Edge.LeftOf
  behind _ _ _ h := .cons h
  func_arg _ _ := .rel ⟨rfl, rfl⟩

/-- Postorder on paths: the node at the end of the first is left before the node at the end of the
second. -/
def Path.FinishesBefore : Path → Path → Prop
  | [], _ => False
  | _ :: _, [] => True
  | edge :: path, edge' :: other => edge.LeftOf edge' ∨ (edge = edge' ∧ FinishesBefore path other)

instance : Path.DepthFirst Path.FinishesBefore where
  asymm := by
    intro path
    induction path with
    | nil => exact fun _ h => h.elim
    | cons edge path ih =>
      intro other h hback
      cases other with
      | nil => exact hback
      | cons edge' other =>
        rcases h with hleft | ⟨rfl, h⟩
        · rcases hback with hright | ⟨rfl, _⟩
          · exact asymm hleft hright
          · exact asymm hleft hleft
        · rcases hback with hright | ⟨_, hback⟩
          · exact asymm hright hright
          · exact ih other h hback
  behind _ _ _ h := .inr ⟨rfl, h⟩
  func_arg _ _ := .inl ⟨rfl, rfl⟩

theorem Path.finishesBefore_of_below (path : Path) (edge : Edge) (rest : Path) :
    Path.FinishesBefore (path ++ edge :: rest) path := by
  induction path with
  | nil => trivial
  | cons edge' path ih => exact DepthFirst.behind edge' ih

namespace Path

section First

variable {α : Type} {before : Path → Path → Prop} {P Q R : Path → α → Prop} {path other : Path}
  {a b : α}

/-- Of what there is at the positions of a term, the first in an order is this one. -/
def First (before : Path → Path → Prop) (P : Path → α → Prop) (path : Path) (a : α) : Prop :=
  P path a ∧ ∀ other b, P other b → other = path ∨ before path other

theorem first_nil (h : P [] a) : First Precedes P [] a := by
  refine ⟨h, ?_⟩
  intro other b _
  cases other with
  | nil => exact .inl rfl
  | cons edge rest => exact .inr .nil

theorem first_of_only (h : P path a) (honly : ∀ other b, P other b → other = path) :
    First before P path a :=
  ⟨h, fun other b hother => .inl (honly other b hother)⟩

theorem First.orRoot {root : α → Prop} (h : First before P path a)
    (hQ : ∀ {q b}, Q q b ↔ (q = [] ∧ root b) ∨ P q b) (hroot : ∀ b, root b → before path []) :
    First before Q path a := by
  refine ⟨hQ.2 (.inr h.1), ?_⟩
  intro other b hother
  rcases hQ.1 hother with ⟨rfl, hb⟩ | hother
  · exact .inr (hroot b hb)
  · exact h.2 other b hother

variable [DepthFirst before]

theorem First.path_unique (h : First before P path a) (h' : First before P other b) :
    path = other := by
  rcases h.2 other b h'.1 with heq | hbefore
  · exact heq.symm
  rcases h'.2 path a h.1 with heq | hafter
  · exact heq
  · exact absurd hafter (asymm hbefore)

theorem First.unique (h : First before P path a) (h' : First before P other b)
    (hP : ∀ {q c d}, P q c → P q d → c = d) : a = b := by
  obtain rfl := h.path_unique h'
  exact hP h.1 h'.1

theorem eq_or_before_cons (h : other = path ∨ before path other) (edge : Edge) :
    edge :: other = edge :: path ∨ before (edge :: path) (edge :: other) := by
  rcases h with rfl | hbefore
  · exact .inl rfl
  · exact .inr (DepthFirst.behind edge hbefore)

theorem First.behind (h : First before P path a) (edge : Edge)
    (hQ : ∀ {q b}, Q q b ↔ ∃ rest, q = edge :: rest ∧ P rest b) :
    First before Q (edge :: path) a := by
  refine ⟨hQ.2 ⟨path, rfl, h.1⟩, ?_⟩
  intro other b hother
  obtain ⟨rest, rfl, hrest⟩ := hQ.1 hother
  exact eq_or_before_cons (h.2 rest b hrest) edge

variable (hQ : ∀ {q b}, Q q b ↔
  (∃ rest, q = .func :: rest ∧ P rest b) ∨ ∃ rest, q = .arg :: rest ∧ R rest b)

include hQ

theorem First.ofFunc (h : First before P path a) : First before Q (.func :: path) a := by
  refine ⟨hQ.2 (.inl ⟨path, rfl, h.1⟩), ?_⟩
  intro other b hother
  rcases hQ.1 hother with ⟨rest, rfl, hrest⟩ | ⟨rest, rfl, _⟩
  · exact eq_or_before_cons (h.2 rest b hrest) .func
  · exact .inr (DepthFirst.func_arg path rest)

theorem First.ofArg (h : First before R path a) (hnone : ∀ q b, ¬ P q b) :
    First before Q (.arg :: path) a := by
  refine ⟨hQ.2 (.inr ⟨path, rfl, h.1⟩), ?_⟩
  intro other b hother
  rcases hQ.1 hother with ⟨rest, _, hrest⟩ | ⟨rest, rfl, hrest⟩
  · exact absurd hrest (hnone rest b)
  · exact eq_or_before_cons (h.2 rest b hrest) .arg

end First

section Lists

variable {P Q R : Path → Prop} {paths left right : List Path}

/-- A list holds the paths with a property, each of them once and in preorder. -/
def Lists (paths : List Path) (P : Path → Prop) : Prop :=
  paths.Pairwise Precedes ∧ ∀ path, path ∈ paths ↔ P path

theorem lists_nil (h : ∀ path, ¬ P path) : Lists [] P :=
  ⟨.nil, fun path => iff_of_false List.not_mem_nil (h path)⟩

theorem Lists.behind (h : Lists paths P) (edge : Edge)
    (hQ : ∀ path, Q path ↔ ∃ rest, path = edge :: rest ∧ P rest) :
    Lists (paths.map (edge :: ·)) Q := by
  refine ⟨List.pairwise_map.2 (h.1.imp .cons), fun path => ?_⟩
  rw [hQ, List.mem_map]
  constructor
  · rintro ⟨rest, hrest, rfl⟩
    exact ⟨rest, rfl, (h.2 rest).1 hrest⟩
  · rintro ⟨rest, rfl, hrest⟩
    exact ⟨rest, (h.2 rest).2 hrest, rfl⟩

theorem Lists.root (h : Lists paths P) (hnil : ¬ P []) (hQ : ∀ path, Q path ↔ path = [] ∨ P path) :
    Lists ([] :: paths) Q := by
  refine ⟨List.pairwise_cons.2 ⟨?_, h.1⟩, fun path => ?_⟩
  · intro path hpath
    cases path with
    | nil => exact absurd ((h.2 []).1 hpath) hnil
    | cons edge rest => exact .nil
  · rw [hQ, List.mem_cons, h.2]

theorem Lists.sides (hleft : Lists left P) (hright : Lists right R)
    (hQ : ∀ path, Q path ↔ (∃ rest, path = .func :: rest ∧ P rest) ∨
      ∃ rest, path = .arg :: rest ∧ R rest) :
    Lists (left.map (.func :: ·) ++ right.map (.arg :: ·)) Q := by
  have hfunc := hleft.behind .func fun path => Iff.rfl
  have harg := hright.behind .arg fun path => Iff.rfl
  refine ⟨List.pairwise_append.2 ⟨hfunc.1, harg.1, ?_⟩, fun path => ?_⟩
  · intro path hpath other hother
    obtain ⟨_, _, rfl⟩ := List.mem_map.1 hpath
    obtain ⟨_, _, rfl⟩ := List.mem_map.1 hother
    exact .rel ⟨rfl, rfl⟩
  · rw [hQ, List.mem_append, hfunc.2, harg.2]

end Lists

end Path

namespace Term

variable {t part part' func arg body : Term} {path other owner : Path} {binder n name : Name}

theorem child_eq_ok {edge : Edge} {next : Term} (h : t.child edge = .ok next) :
    (∃ binder, edge = .body ∧ t = lam binder next) ∨ (∃ arg, edge = .func ∧ t = app next arg) ∨
      ∃ func, edge = .arg ∧ t = app func next := by
  cases t with
  | lam binder body =>
    cases edge with
    | body => cases h; exact .inl ⟨binder, rfl, rfl⟩
    | _ => cases h
  | app func arg =>
    cases edge with
    | func => cases h; exact .inr (.inl ⟨arg, rfl, rfl⟩)
    | arg => cases h; exact .inr (.inr ⟨func, rfl, rfl⟩)
    | body => cases h
  | _ => cases edge <;> cases h

theorem subterm_var_eq_ok_iff : (var name).subterm path = .ok part ↔ path = [] ∧ part = var name := by
  cases path with
  | nil => simp [subterm, eq_comm]
  | cons edge rest => exact iff_of_false (by cases edge <;> nofun) nofun

theorem subterm_foreign_eq_ok_iff {leaf : Foreign} :
    (foreign leaf).subterm path = .ok part ↔ path = [] ∧ part = foreign leaf := by
  cases path with
  | nil => simp [subterm, eq_comm]
  | cons edge rest => exact iff_of_false (by cases edge <;> nofun) nofun

theorem subterm_lam_eq_ok_iff :
    (lam binder body).subterm path = .ok part ↔ (path = [] ∧ part = lam binder body) ∨
      ∃ rest, path = .body :: rest ∧ body.subterm rest = .ok part := by
  cases path with
  | nil => simp [subterm, eq_comm]
  | cons edge rest =>
    cases edge with
    | body => simp [subterm, child, bind, Except.bind]
    | func => exact iff_of_false nofun (by simp)
    | arg => exact iff_of_false nofun (by simp)

theorem subterm_app_eq_ok_iff :
    (app func arg).subterm path = .ok part ↔ (path = [] ∧ part = app func arg) ∨
      (∃ rest, path = .func :: rest ∧ func.subterm rest = .ok part) ∨
      ∃ rest, path = .arg :: rest ∧ arg.subterm rest = .ok part := by
  cases path with
  | nil => simp [subterm, eq_comm]
  | cons edge rest =>
    cases edge with
    | func => simp [subterm, child, bind, Except.bind]
    | arg => simp [subterm, child, bind, Except.bind]
    | body => exact iff_of_false nofun (by simp)

/-- The names of the binders that are passed along a path, outermost first. -/
def bindersAlong : Term → Path → List Name
  | lam binder body, .body :: path => binder :: body.bindersAlong path
  | app func _, .func :: path => func.bindersAlong path
  | app _ arg, .arg :: path => arg.bindersAlong path
  | _, _ => []

@[simp] theorem bindersAlong_nil (t : Term) : t.bindersAlong [] = [] := by
  cases t <;> rfl

theorem precedes_or_precedes (h : t.subterm path = .ok part) (hother : t.subterm other = .ok part')
    (hne : path ≠ other) : path.Precedes other ∨ other.Precedes path := by
  induction path generalizing t other with
  | nil =>
    cases other with
    | nil => exact absurd rfl hne
    | cons edge rest => exact .inl .nil
  | cons edge path ih =>
    cases other with
    | nil => exact .inr .nil
    | cons edge' other =>
      obtain ⟨next, hnext, hpath⟩ := bind_eq_ok_iff.1 h
      obtain ⟨next', hnext', hrest⟩ := bind_eq_ok_iff.1 hother
      by_cases hedge : edge = edge'
      · subst hedge
        rw [hnext] at hnext'
        cases hnext'
        have hne' : path ≠ other := fun heq => hne (congrArg _ heq)
        exact (ih hpath hrest hne').imp .cons .cons
      · rcases child_eq_ok hnext with ⟨binder, rfl, rfl⟩ | ⟨arg, rfl, rfl⟩ | ⟨func, rfl, rfl⟩
        · cases edge' with
          | body => exact absurd rfl hedge
          | _ => cases hnext'
        · cases edge' with
          | func => exact absurd rfl hedge
          | arg => exact .inl (.rel ⟨rfl, rfl⟩)
          | body => cases hnext'
        · cases edge' with
          | func => exact .inr (.rel ⟨rfl, rfl⟩)
          | arg => exact absurd rfl hedge
          | body => cases hnext'

theorem subterm_append (t : Term) (front rest : Path) :
    t.subterm (front ++ rest) = t.subterm front >>= fun part => part.subterm rest := by
  induction front generalizing t with
  | nil => rfl
  | cons edge front ih =>
    rw [List.cons_append, subterm, subterm, bind_assoc]
    congr 1
    funext next
    exact ih next

theorem exists_subterm_of_append {front rest : Path} (h : t.subterm (front ++ rest) = .ok part) :
    ∃ middle, t.subterm front = .ok middle ∧ middle.subterm rest = .ok part := by
  rw [subterm_append] at h
  exact bind_eq_ok_iff.1 h

theorem bindersAlong_append {front : Path} (h : t.subterm front = .ok part) (rest : Path) :
    t.bindersAlong (front ++ rest) = t.bindersAlong front ++ part.bindersAlong rest := by
  induction front generalizing t with
  | nil =>
    cases h
    rw [bindersAlong_nil]
    rfl
  | cons edge front ih =>
    obtain ⟨next, hnext, h⟩ := bind_eq_ok_iff.1 h
    rcases child_eq_ok hnext with ⟨binder, rfl, rfl⟩ | ⟨arg, rfl, rfl⟩ | ⟨func, rfl, rfl⟩
    · exact congrArg (binder :: ·) (ih h)
    · exact ih h
    · exact ih h

theorem exists_subterm_of_bindersAlong {outer inner : List Name} (h : t.subterm path = .ok part)
    (hbinders : t.bindersAlong path = outer ++ n :: inner) :
    ∃ above below body, path = above ++ .body :: below ∧ t.subterm above = .ok (lam n body) ∧
      t.bindersAlong above = outer ∧ body.subterm below = .ok part := by
  induction path generalizing t outer with
  | nil => simp at hbinders
  | cons edge path ih =>
    obtain ⟨next, hnext, h⟩ := bind_eq_ok_iff.1 h
    rcases child_eq_ok hnext with ⟨binder, rfl, rfl⟩ | ⟨arg, rfl, rfl⟩ | ⟨func, rfl, rfl⟩
    · rw [bindersAlong] at hbinders
      cases outer with
      | nil =>
        cases hbinders
        exact ⟨[], path, next, rfl, rfl, bindersAlong_nil _, h⟩
      | cons first outer =>
        rw [List.cons_append, List.cons.injEq] at hbinders
        obtain ⟨rfl, hbinders⟩ := hbinders
        obtain ⟨above, below, body, rfl, habove, houter, hbelow⟩ := ih h hbinders
        exact ⟨.body :: above, below, body, rfl, habove, congrArg _ houter, hbelow⟩
    · obtain ⟨above, below, body, rfl, habove, houter, hbelow⟩ := ih h hbinders
      exact ⟨.func :: above, below, body, rfl, habove, houter, hbelow⟩
    · obtain ⟨above, below, body, rfl, habove, houter, hbelow⟩ := ih h hbinders
      exact ⟨.arg :: above, below, body, rfl, habove, houter, hbelow⟩

theorem mem_foreignLeaves_iff {leaf : Foreign} :
    leaf ∈ t.foreignLeaves ↔ ∃ path, t.subterm path = .ok (foreign leaf) := by
  induction t with
  | var name => simp [foreignLeaves, subterm_var_eq_ok_iff]
  | lam binder body ih => simp [foreignLeaves, subterm_lam_eq_ok_iff, ih]
  | app func arg ihf iha => simp [foreignLeaves, subterm_app_eq_ok_iff, ihf, iha, exists_or]
  | foreign leaf' => simp [foreignLeaves, subterm_foreign_eq_ok_iff]

theorem foreignLeaves_eq_nil_iff :
    t.foreignLeaves = [] ↔ ∀ path leaf, t.subterm path ≠ .ok (foreign leaf) := by
  simp only [List.eq_nil_iff_forall_not_mem, mem_foreignLeaves_iff, not_exists]
  exact forall_comm

/-! ### Binders -/

def binderAt (t : Term) (path : Path) : Option Name :=
  match t.subterm path with
  | .ok (.lam binder _) => some binder
  | _ => none

theorem binderAt_eq_some_iff :
    t.binderAt path = some n ↔ ∃ body, t.subterm path = .ok (lam n body) := by
  rw [binderAt]
  split
  · rename_i binder body hsubterm
    simp [hsubterm, eq_comm]
  · rename_i hnone
    refine iff_of_false nofun ?_
    rintro ⟨body, hsubterm⟩
    exact hnone n body hsubterm

theorem binderAt_cons_eq_some_iff {edge : Edge} :
    t.binderAt (edge :: path) = some n ↔
      ∃ next, t.child edge = .ok next ∧ next.binderAt path = some n := by
  simp only [binderAt_eq_some_iff, subterm, bind_eq_ok_iff]
  constructor
  · rintro ⟨body, next, hnext, hbody⟩
    exact ⟨next, hnext, body, hbody⟩
  · rintro ⟨next, hnext, body, hbody⟩
    exact ⟨body, next, hnext, hbody⟩

@[simp] theorem binderAt_var (name : Name) (path : Path) : (var name).binderAt path = none := by
  cases path with
  | nil => rfl
  | cons edge path => cases edge <;> rfl

@[simp] theorem binderAt_lam_nil (binder : Name) (body : Term) :
    (lam binder body).binderAt [] = some binder :=
  rfl

@[simp] theorem binderAt_lam_body (binder : Name) (body : Term) (path : Path) :
    (lam binder body).binderAt (.body :: path) = body.binderAt path :=
  rfl

@[simp] theorem binderAt_app_func (func arg : Term) (path : Path) :
    (app func arg).binderAt (.func :: path) = func.binderAt path :=
  rfl

@[simp] theorem binderAt_app_arg (func arg : Term) (path : Path) :
    (app func arg).binderAt (.arg :: path) = arg.binderAt path :=
  rfl

theorem binderAt_lam_eq_some_iff :
    (lam binder body).binderAt path = some n ↔
      (path = [] ∧ n = binder) ∨ ∃ rest, path = .body :: rest ∧ body.binderAt rest = some n := by
  cases path with
  | nil => simp [eq_comm]
  | cons edge rest =>
    cases edge with
    | body => simp
    | func => exact iff_of_false nofun (by simp)
    | arg => exact iff_of_false nofun (by simp)

theorem binderAt_app_eq_some_iff :
    (app func arg).binderAt path = some n ↔
      (∃ rest, path = .func :: rest ∧ func.binderAt rest = some n) ∨
      ∃ rest, path = .arg :: rest ∧ arg.binderAt rest = some n := by
  cases path with
  | nil => exact iff_of_false nofun (by simp)
  | cons edge rest =>
    cases edge with
    | func => simp
    | arg => simp
    | body => exact iff_of_false nofun (by simp)

/-! ### Variables -/

/-- A variable of this name stands at the end of the path, and no binder above has the name. -/
inductive FreeAt : Term → Path → Name → Prop
  | var (n : Name) : FreeAt (.var n) [] n
  | body {body : Term} {path : Path} {n binder : Name} (h : FreeAt body path n) (hne : n ≠ binder) :
      FreeAt (.lam binder body) (.body :: path) n
  | func {func : Term} {path : Path} {n : Name} (h : FreeAt func path n) (arg : Term) :
      FreeAt (.app func arg) (.func :: path) n
  | arg {arg : Term} {path : Path} {n : Name} (h : FreeAt arg path n) (func : Term) :
      FreeAt (.app func arg) (.arg :: path) n

/-- A variable stands at the end of the first path, and the nearest binder above that has its name
stands at the end of the second. -/
inductive BoundAt : Term → Path → Path → Prop
  | here {body : Term} {path : Path} {binder : Name} (h : FreeAt body path binder) :
      BoundAt (.lam binder body) (.body :: path) []
  | body {body : Term} {path owner : Path} (h : BoundAt body path owner) (binder : Name) :
      BoundAt (.lam binder body) (.body :: path) (.body :: owner)
  | func {func : Term} {path owner : Path} (h : BoundAt func path owner) (arg : Term) :
      BoundAt (.app func arg) (.func :: path) (.func :: owner)
  | arg {arg : Term} {path owner : Path} (h : BoundAt arg path owner) (func : Term) :
      BoundAt (.app func arg) (.arg :: path) (.arg :: owner)

theorem FreeAt.subterm_eq (h : t.FreeAt path n) : t.subterm path = .ok (.var n) := by
  induction h with
  | var n => rfl
  | body _ _ ih => exact ih
  | func _ _ ih => exact ih
  | arg _ _ ih => exact ih

theorem BoundAt.exists_name (h : t.BoundAt path owner) :
    ∃ n, t.subterm path = .ok (.var n) ∧ t.binderAt owner = some n := by
  induction h with
  | @here body path binder h => exact ⟨binder, h.subterm_eq, rfl⟩
  | body _ _ ih => exact ih
  | func _ _ ih => exact ih
  | arg _ _ ih => exact ih

theorem freeAt_or_boundAt (h : t.subterm path = .ok (.var n)) :
    t.FreeAt path n ∨ ∃ owner, t.BoundAt path owner := by
  induction t generalizing path with
  | var name =>
    cases path with
    | nil =>
      cases h
      exact .inl (.var n)
    | cons edge path => cases edge <;> cases h
  | lam binder body ih =>
    cases path with
    | nil => cases h
    | cons edge path =>
      cases edge with
      | body =>
        rcases ih h with hfree | ⟨owner, hbound⟩
        · by_cases hn : n = binder
          · subst hn
            exact .inr ⟨[], .here hfree⟩
          · exact .inl (.body hfree hn)
        · exact .inr ⟨.body :: owner, .body hbound binder⟩
      | _ => cases h
  | app func arg ihf iha =>
    cases path with
    | nil => cases h
    | cons edge path =>
      cases edge with
      | func =>
        rcases ihf h with hfree | ⟨owner, hbound⟩
        · exact .inl (.func hfree arg)
        · exact .inr ⟨.func :: owner, .func hbound arg⟩
      | arg =>
        rcases iha h with hfree | ⟨owner, hbound⟩
        · exact .inl (.arg hfree func)
        · exact .inr ⟨.arg :: owner, .arg hbound func⟩
      | body => cases h
  | foreign leaf =>
    cases path with
    | nil => cases h
    | cons edge path => cases leaf <;> cases edge <;> cases h

end Term

end UntypedLambda

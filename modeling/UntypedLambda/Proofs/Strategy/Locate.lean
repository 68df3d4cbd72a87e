import UntypedLambda.Proofs.Contraction
/-!
# What the policies find

The two policies that look everywhere keep a list of what is still to be searched. Each of them goes
through a term before it turns to the rest of the list, so what it finds in the term can be told by
recursion: the first redex in preorder, and the first in postorder. The entry that puts an application
back below its children is what makes the second order out of the first.

Every policy that finds a path finds one that leads to a redex, and no policy looks at a name, so in
alpha-equivalent terms each finds the same path. Only call by value can fail, and only where a text or a
number stands for a term.
-/

namespace UntypedLambda

namespace Term

variable {before : Path → Path → Prop} {t func arg body : Term} {path other : Path}

theorem isValue_shape (t : Term) : t.shape.isValue = t.isValue := by
  cases t <;> rfl

/-! ### The first redex, node by node -/

def FirstRedexAt (before : Path → Path → Prop) (t : Term) (path : Path) : Prop :=
  ∃ redex, Path.First before t.RedexAt path redex

theorem FirstRedexAt.hasRedexAt (h : t.FirstRedexAt before path) : t.HasRedexAt path := by
  obtain ⟨redex, hfirst⟩ := h
  exact ⟨redex, hfirst.1⟩

section DepthFirst

variable [Path.DepthFirst before]

theorem FirstRedexAt.unique (h : t.FirstRedexAt before path) (hother : t.FirstRedexAt before other) :
    path = other := by
  obtain ⟨_, hfirst⟩ := h
  obtain ⟨_, hfirst'⟩ := hother
  exact hfirst.path_unique hfirst'

theorem FirstRedexAt.under (h : body.FirstRedexAt before path) (binder : Name) :
    (lam binder body).FirstRedexAt before (.body :: path) := by
  obtain ⟨redex, hfirst⟩ := h
  exact ⟨redex, hfirst.behind .body redexAt_lam_iff⟩

theorem FirstRedexAt.applied (h : func.FirstRedexAt before path) (arg : Term)
    (hroot : func.isValue = true → before (.func :: path) []) :
    (app func arg).FirstRedexAt before (.func :: path) := by
  obtain ⟨redex, hfirst⟩ := h
  have hside := hfirst.ofFunc (R := arg.RedexAt) Iff.rfl
  exact ⟨redex, hside.orRoot redexAt_app_iff fun _ hvalue => hroot hvalue.2⟩

theorem FirstRedexAt.operand (h : arg.FirstRedexAt before path) (hfunc : func.IsNormal)
    (hroot : func.isValue = true → before (.arg :: path) []) :
    (app func arg).FirstRedexAt before (.arg :: path) := by
  obtain ⟨redex, hfirst⟩ := h
  have hside := hfirst.ofArg Iff.rfl fun q r hr => hfunc.not_hasRedexAt q ⟨r, hr⟩
  exact ⟨redex, hside.orRoot redexAt_app_iff fun _ hvalue => hroot hvalue.2⟩

/-- A search that overlooks nothing and comes to first redexes only finds the first redex. -/
theorem eq_some_iff_firstRedexAt {found : Option Path} (hnone : found = none → t.IsNormal)
    (hsome : ∀ path, found = some path → t.FirstRedexAt before path) :
    found = some path ↔ t.FirstRedexAt before path := by
  constructor
  · exact hsome path
  · intro h
    cases found with
    | none => exact absurd h.hasRedexAt ((hnone rfl).not_hasRedexAt path)
    | some other => rw [(hsome other rfl).unique h]

end DepthFirst

end Term

theorem Trail.unwind_cons_append {α : Type} (edge : α) (trail : Trail α) (rest : List α) :
    unwind (edge :: trail) ++ rest = trail.unwind ++ edge :: rest := by
  rw [unwind, unwind, List.reverse_cons, List.append_assoc, List.singleton_append]

namespace Locate

open Term

variable {t : Term} {path : Path}

/-! ### The search in preorder -/

/-- The redex that a search in preorder finds in a term. -/
def leftmost : Term → Option Path
  | .lam _ body => (leftmost body).map (.body :: ·)
  | .app func arg =>
    if func.isValue then some []
    else ((leftmost func).map (.func :: ·)).or ((leftmost arg).map (.arg :: ·))
  | _ => none

/-- The search goes through a term before it turns to what else is pending. -/
theorem normal_cons (t : Term) (trail : Trail Edge) (pending : List (Term × Trail Edge)) :
    normal ((t, trail) :: pending) =
      ((leftmost t).map (trail.unwind ++ ·)).or (normal pending) := by
  induction t generalizing trail pending with
  | lam binder body ih =>
    rw [normal, ih, leftmost, Option.map_map]
    simp only [Trail.unwind_cons_append, Function.comp_def]
  | app func arg ihf iha =>
    rw [normal, leftmost]
    split
    · simp
    · rw [ihf, iha, Option.map_or, Option.map_map, Option.map_map, Option.or_assoc]
      simp only [Trail.unwind_cons_append, Function.comp_def]
  | var name =>
    rw [normal]
    rfl
  | foreign leaf =>
    rw [normal]
    rfl

theorem leftmost_eq_none_iff : leftmost t = none ↔ t.IsNormal := by
  induction t with
  | lam binder body ih => rw [leftmost, Option.map_eq_none_iff, ih, IsNormal]
  | app func arg ihf iha =>
    rw [leftmost, IsNormal]
    cases func.isValue with
    | true => simp
    | false => simp [ihf, iha]
  | _ => exact ⟨fun _ => trivial, fun _ => rfl⟩

theorem leftmost_eq_some (h : leftmost t = some path) : t.FirstRedexAt Path.Precedes path := by
  induction t generalizing path with
  | lam binder body ih =>
    obtain ⟨rest, hrest, rfl⟩ := Option.map_eq_some_iff.1 h
    exact (ih hrest).under binder
  | app func arg ihf iha =>
    rw [leftmost] at h
    split at h
    · rename_i hvalue
      cases h
      exact ⟨app func arg, Path.first_nil ⟨rfl, (isRedex_app func arg).trans hvalue⟩⟩
    · rename_i hvalue
      rcases Option.or_eq_some_iff.1 h with h | ⟨hnone, h⟩
      · obtain ⟨rest, hrest, rfl⟩ := Option.map_eq_some_iff.1 h
        exact (ihf hrest).applied arg fun htrue => absurd htrue hvalue
      · obtain ⟨rest, hrest, rfl⟩ := Option.map_eq_some_iff.1 h
        have hfunc := leftmost_eq_none_iff.1 (Option.map_eq_none_iff.1 hnone)
        exact (iha hrest).operand hfunc fun htrue => absurd htrue hvalue
  | _ => cases h

/-! ### The search in postorder -/

/-- The redex that a search in postorder finds in a term. -/
def innermost : Term → Option Path
  | .lam _ body => (innermost body).map (.body :: ·)
  | .app func arg =>
    (((innermost func).map (.func :: ·)).or ((innermost arg).map (.arg :: ·))).or
      (if func.isValue then some [] else none)
  | _ => none

theorem full_cons (t : Term) (trail : Trail Edge) (pending : List (Term × Trail Edge × Bool)) :
    full ((t, trail, false) :: pending) =
      ((innermost t).map (trail.unwind ++ ·)).or (full pending) := by
  induction t generalizing trail pending with
  | lam binder body ih =>
    rw [full, ih, innermost, Option.map_map]
    simp only [Trail.unwind_cons_append, Function.comp_def]
  | app func arg ihf iha =>
    -- Behind both children the application itself comes up, with its mark.
    rw [full, ihf, iha, full, innermost, Option.map_or, Option.map_or, Option.map_map,
      Option.map_map, Option.or_assoc, Option.or_assoc]
    simp only [Trail.unwind_cons_append, Function.comp_def]
    cases func.isValue <;> simp
  | var name =>
    rw [full]
    rfl
  | foreign leaf =>
    rw [full]
    rfl

theorem innermost_eq_none_iff : innermost t = none ↔ t.IsNormal := by
  induction t with
  | lam binder body ih => rw [innermost, Option.map_eq_none_iff, ih, IsNormal]
  | app func arg ihf iha =>
    rw [innermost, IsNormal, Option.or_eq_none_iff, Option.or_eq_none_iff, Option.map_eq_none_iff,
      Option.map_eq_none_iff, ihf, iha]
    cases func.isValue <;> simp
  | _ => exact ⟨fun _ => trivial, fun _ => rfl⟩

theorem innermost_eq_some (h : innermost t = some path) :
    t.FirstRedexAt Path.FinishesBefore path := by
  induction t generalizing path with
  | lam binder body ih =>
    obtain ⟨rest, hrest, rfl⟩ := Option.map_eq_some_iff.1 h
    exact (ih hrest).under binder
  | app func arg ihf iha =>
    rw [innermost, Option.or_assoc] at h
    rcases Option.or_eq_some_iff.1 h with h | ⟨hfunc, h⟩
    · obtain ⟨rest, hrest, rfl⟩ := Option.map_eq_some_iff.1 h
      exact (ihf hrest).applied arg fun _ => trivial
    rw [Option.map_eq_none_iff, innermost_eq_none_iff] at hfunc
    rcases Option.or_eq_some_iff.1 h with h | ⟨harg, h⟩
    · obtain ⟨rest, hrest, rfl⟩ := Option.map_eq_some_iff.1 h
      exact (iha hrest).operand hfunc fun _ => trivial
    -- Both sides were searched in vain, so the application itself is left.
    rw [Option.map_eq_none_iff, innermost_eq_none_iff] at harg
    split at h
    · rename_i hvalue
      cases h
      refine ⟨app func arg, Path.first_of_only ⟨rfl, (isRedex_app func arg).trans hvalue⟩ ?_⟩
      intro other redex hother
      rcases redexAt_app_iff.1 hother with ⟨rfl, _⟩ | ⟨rest, _, hrest⟩ | ⟨rest, _, hrest⟩
      · rfl
      · exact absurd ⟨redex, hrest⟩ (hfunc.not_hasRedexAt rest)
      · exact absurd ⟨redex, hrest⟩ (harg.not_hasRedexAt rest)
    · cases h
  | _ => cases h

/-! ### The search of the lazy policy -/

/-- Above the redex that the lazy policy finds, every function is an application, so the search in
preorder goes down the same way and comes to no other redex before. -/
theorem exists_leftmost_of_lazy {depth : Nat} (h : lazy depth t = some path) :
    ∃ rest, path = List.replicate depth .func ++ rest ∧ leftmost t = some rest := by
  induction t generalizing depth with
  | app func arg ihf iha =>
    rw [lazy] at h
    split at h
    · rename_i hvalue
      cases h
      exact ⟨[], (List.append_nil _).symm, by rw [leftmost, if_pos hvalue]⟩
    · rename_i hvalue
      obtain ⟨rest, rfl, hrest⟩ := ihf h
      refine ⟨.func :: rest, ?_, ?_⟩
      · rw [List.replicate_succ', List.append_assoc, List.singleton_append]
      · rw [leftmost, if_neg hvalue, hrest]
        rfl
  | _ => cases h

end Locate

/-! ### The search of call by value -/

namespace Term

variable {t : Term} {value : Bool} {fault : Fault}

theorem askValue_of_proper (h : t.Proper) : t.askValue = .ok t.isValue := by
  rcases t.askValue_cases with hask | ⟨leaf, rfl, hleaf, _⟩
  · exact hask
  · exact absurd (h leaf List.mem_cons_self) hleaf

theorem isValue_of_askValue (h : t.askValue = .ok value) : t.isValue = value := by
  rcases t.askValue_cases with hask | ⟨leaf, _, _, hask⟩
  · exact Except.ok.inj (hask.symm.trans h)
  · cases hask.symm.trans h

theorem askValue_shape (t : Term) : t.shape.askValue = t.askValue := by
  cases t <;> rfl

end Term

namespace Locate

open Term

variable {t func arg : Term} {path : Path} {found : Option Path} {trail : Trail Edge}

theorem callByValue_app_eq_ok (h : callByValue trail (.app func arg) = .ok found) :
    (func.isValue = true ∧ arg.isValue = true ∧ found = some trail.unwind) ∨
    (func.isValue = true ∧ arg.isValue = false ∧ callByValue (.arg :: trail) arg = .ok found) ∨
    (func.isValue = false ∧ callByValue (.func :: trail) func = .ok found) := by
  rw [callByValue] at h
  obtain ⟨value, hfunc, h⟩ := bind_eq_ok_iff.1 h
  rw [isValue_of_askValue hfunc]
  cases value with
  | false => exact .inr (.inr ⟨rfl, h⟩)
  | true =>
    rw [if_pos rfl] at h
    obtain ⟨value, harg, h⟩ := bind_eq_ok_iff.1 h
    rw [isValue_of_askValue harg]
    cases value with
    | false => exact .inr (.inl ⟨rfl, rfl, h⟩)
    | true => exact .inl ⟨rfl, rfl, (Except.ok.inj h).symm⟩

theorem callByValue_eq_some (h : callByValue trail t = .ok (some path)) :
    ∃ rest func arg, path = trail.unwind ++ rest ∧ t.subterm rest = .ok (.app func arg) ∧
      func.isValue = true ∧ arg.isValue = true := by
  induction t generalizing trail with
  | app func arg ihf iha =>
    rcases callByValue_app_eq_ok h with ⟨hfunc, harg, hpath⟩ | ⟨_, _, h⟩ | ⟨_, h⟩
    · cases hpath
      exact ⟨[], func, arg, (List.append_nil _).symm, rfl, hfunc, harg⟩
    · obtain ⟨rest, func', arg', rfl, hrest⟩ := iha h
      exact ⟨.arg :: rest, func', arg', Trail.unwind_cons_append _ trail rest, hrest⟩
    · obtain ⟨rest, func', arg', rfl, hrest⟩ := ihf h
      exact ⟨.func :: rest, func', arg', Trail.unwind_cons_append _ trail rest, hrest⟩
  | _ => cases h

theorem exists_callByValue_of_proper (h : t.Proper) (trail : Trail Edge) :
    ∃ found, callByValue trail t = .ok found := by
  induction t generalizing trail with
  | app func arg ihf iha =>
    obtain ⟨hfunc, harg⟩ := proper_app_iff.1 h
    rw [callByValue, askValue_of_proper hfunc, askValue_of_proper harg]
    cases func.isValue with
    | false => exact ihf hfunc _
    | true =>
      cases arg.isValue with
      | false => exact iha harg _
      | true => exact ⟨_, rfl⟩
  | _ => exact ⟨none, rfl⟩

/-! ### The names do not matter -/

theorem callByValue_shape (trail : Trail Edge) (t : Term) :
    callByValue trail t.shape = callByValue trail t := by
  induction t generalizing trail with
  | app func arg ihf iha =>
    rw [shape, callByValue, callByValue, askValue_shape, askValue_shape, ihf, iha]
  | _ => rfl

theorem lazy_shape (depth : Nat) (t : Term) : lazy depth t.shape = lazy depth t := by
  induction t generalizing depth with
  | app func arg ihf iha => rw [shape, lazy, lazy, isValue_shape, ihf]
  | _ => rfl

theorem leftmost_shape (t : Term) : leftmost t.shape = leftmost t := by
  induction t with
  | lam binder body ih => rw [shape, leftmost, leftmost, ih]
  | app func arg ihf iha => rw [shape, leftmost, leftmost, isValue_shape, ihf, iha]
  | _ => rfl

theorem innermost_shape (t : Term) : innermost t.shape = innermost t := by
  induction t with
  | lam binder body ih => rw [shape, innermost, innermost, ih]
  | app func arg ihf iha => rw [shape, innermost, innermost, isValue_shape, ihf, iha]
  | _ => rfl

end Locate

namespace Policy

open Term

variable {policy : Policy} {t u : Term} {path : Path}

theorem normal_locate (t : Term) : normal.locate t = .ok (Locate.leftmost t) := by
  rw [locate, Locate.normal_cons, Locate.normal, Option.or_none]
  exact congrArg Except.ok Option.map_id'

theorem full_locate (t : Term) : full.locate t = .ok (Locate.innermost t) := by
  rw [locate, Locate.full_cons, Locate.full, Option.or_none]
  exact congrArg Except.ok Option.map_id'

theorem normal_locate_eq_none_iff : normal.locate t = .ok none ↔ t.IsNormal := by
  rw [normal_locate, Except.ok.injEq, Locate.leftmost_eq_none_iff]

theorem full_locate_eq_none_iff : full.locate t = .ok none ↔ t.IsNormal := by
  rw [full_locate, Except.ok.injEq, Locate.innermost_eq_none_iff]

theorem normal_locate_eq_some_iff :
    normal.locate t = .ok (some path) ↔ t.FirstRedexAt Path.Precedes path := by
  rw [normal_locate, Except.ok.injEq]
  exact eq_some_iff_firstRedexAt Locate.leftmost_eq_none_iff.1 fun _ => Locate.leftmost_eq_some

theorem full_locate_eq_some_iff :
    full.locate t = .ok (some path) ↔ t.FirstRedexAt Path.FinishesBefore path := by
  rw [full_locate, Except.ok.injEq]
  exact eq_some_iff_firstRedexAt Locate.innermost_eq_none_iff.1 fun _ => Locate.innermost_eq_some

theorem normal_locate_of_lazy (h : lazy.locate t = .ok (some path)) :
    normal.locate t = .ok (some path) := by
  obtain ⟨rest, rfl, hrest⟩ := Locate.exists_leftmost_of_lazy (Except.ok.inj h)
  rw [normal_locate, hrest]

theorem hasRedexAt_of_locate (h : policy.locate t = .ok (some path)) : t.HasRedexAt path := by
  cases policy with
  | callByValue =>
    obtain ⟨rest, func, arg, rfl, hsubterm, hfunc, _⟩ := Locate.callByValue_eq_some h
    exact ⟨app func arg, hsubterm, (isRedex_app func arg).trans hfunc⟩
  | lazy => exact (normal_locate_eq_some_iff.1 (normal_locate_of_lazy h)).hasRedexAt
  | normal => exact (normal_locate_eq_some_iff.1 h).hasRedexAt
  | full => exact (full_locate_eq_some_iff.1 h).hasRedexAt

theorem exists_locate (policy : Policy) (h : policy ≠ .callByValue ∨ t.Proper) :
    ∃ found, policy.locate t = .ok found := by
  cases policy with
  | callByValue => exact Locate.exists_callByValue_of_proper (h.resolve_left (absurd rfl)) []
  | _ => exact ⟨_, rfl⟩

theorem locate_eq_none (policy : Policy) (hask : policy ≠ .callByValue ∨ t.Proper)
    (h : ∀ path, policy.locate t ≠ .ok (some path)) : policy.locate t = .ok none := by
  obtain ⟨found, hfound⟩ := policy.exists_locate hask
  cases found with
  | none => exact hfound
  | some path => exact absurd hfound (h path)

theorem locate_shape (policy : Policy) (t : Term) : policy.locate t.shape = policy.locate t := by
  cases policy with
  | callByValue => exact Locate.callByValue_shape [] t
  | lazy => rw [locate, locate, Locate.lazy_shape]
  | normal => rw [normal_locate, normal_locate, Locate.leftmost_shape]
  | full => rw [full_locate, full_locate, Locate.innermost_shape]

theorem locate_eq_of_alphaEq (policy : Policy) (h : t.AlphaEq u) :
    policy.locate t = policy.locate u := by
  rw [← policy.locate_shape t, ← policy.locate_shape u, Term.AlphaUnder.shape_eq h]

end Policy

end UntypedLambda

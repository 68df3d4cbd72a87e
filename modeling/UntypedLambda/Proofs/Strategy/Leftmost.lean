import UntypedLambda.Proofs.Strategy.Locate
/-!
# The leftmost outermost redex

The normal policy takes the first redex in preorder, among all the redexes of a term. The order is one
on positions and knows nothing of redexes.

Normal order can also be described by looking at the head first: a function in which applications
alone lead to a redex is searched before anything else is considered. That description has one case
more and comes to the same, since such a function is no abstraction and its search does not fail.
-/

namespace UntypedLambda

namespace Term

variable {t : Term}

/-! ### Redexes at the head -/

theorem isValue_eq_false_of_hasHeadRedex (h : t.hasHeadRedex = true) : t.isValue = false := by
  cases t with
  | lam binder body => cases h
  | _ => rfl

theorem hasHeadRedex_iff : t.hasHeadRedex = true ↔ ∃ path, .body ∉ path ∧ t.HasRedexAt path := by
  induction t with
  | var _ | foreign _ =>
    refine iff_of_false Bool.false_ne_true ?_
    rintro ⟨path, _, hpath⟩
    refine IsNormal.not_hasRedexAt ?_ path hpath
    exact trivial
  | lam binder body ih =>
    refine iff_of_false Bool.false_ne_true ?_
    rintro ⟨path, hbody, redex, hredex⟩
    obtain ⟨rest, rfl, _⟩ := redexAt_lam_iff.1 hredex
    exact hbody List.mem_cons_self
  | app func arg ihf iha =>
    rw [hasHeadRedex_app, Bool.or_eq_true, Bool.or_eq_true, ihf, iha]
    constructor
    · rintro ((hvalue | ⟨path, hbody, hpath⟩) | ⟨path, hbody, hpath⟩)
      · exact ⟨[], List.not_mem_nil, hasRedexAt_nil hvalue arg⟩
      · exact ⟨.func :: path, by simpa using hbody, hpath.applied arg⟩
      · exact ⟨.arg :: path, by simpa using hbody, hpath.operand func⟩
    · rintro ⟨path, hbody, redex, hredex⟩
      rcases redexAt_app_iff.1 hredex with ⟨_, _, hvalue⟩ | ⟨rest, rfl, hrest⟩ | ⟨rest, rfl, hrest⟩
      · exact .inl (.inl hvalue)
      · exact .inl (.inr ⟨rest, fun hmem => hbody (List.mem_cons_of_mem _ hmem), redex, hrest⟩)
      · exact .inr ⟨rest, fun hmem => hbody (List.mem_cons_of_mem _ hmem), redex, hrest⟩

end Term

namespace Locate

open Term

variable {t : Term} {path : Path}

/-- The search for the leftmost outermost redex that looks at the head of a function first. -/
def headFirst : Term → Option Path
  | .lam _ body => (headFirst body).map (.body :: ·)
  | .app func arg =>
    if func.hasHeadRedex then (headFirst func).map (.func :: ·)
    else if func.isValue then some []
    else ((headFirst func).map (.func :: ·)).or ((headFirst arg).map (.arg :: ·))
  | _ => none

theorem leftmost_eq_headFirst (t : Term) : leftmost t = headFirst t := by
  induction t with
  | lam binder body ih => rw [leftmost, headFirst, ih]
  | app func arg ihf iha =>
    rw [leftmost, headFirst, ← ihf, ← iha]
    cases hhead : func.hasHeadRedex with
    | true =>
      -- The function has a redex, so it is no normal term and the search in it finds one.
      obtain ⟨path, _, hpath⟩ := hasHeadRedex_iff.1 hhead
      have hsome : leftmost func ≠ none :=
        fun hnone => (leftmost_eq_none_iff.1 hnone).not_hasRedexAt path hpath
      obtain ⟨rest, hrest⟩ := Option.ne_none_iff_exists'.1 hsome
      simp [isValue_eq_false_of_hasHeadRedex hhead, hrest]
    | false => simp
  | _ => rfl

/-! ### Policies that stay at the head -/

theorem lazy_eq_none_of_hasHeadRedex_eq_false (h : t.hasHeadRedex = false) (depth : Nat) :
    lazy depth t = none := by
  induction t generalizing depth with
  | app func arg ihf iha =>
    simp only [hasHeadRedex_app, Bool.or_eq_false_iff] at h
    obtain ⟨⟨hvalue, hfunc⟩, _⟩ := h
    rw [lazy, hvalue, if_neg Bool.false_ne_true]
    exact ihf hfunc (depth + 1)
  | _ => rfl

theorem callByValue_ne_some_of_hasHeadRedex_eq_false (h : t.hasHeadRedex = false)
    (trail : Trail Edge) (path : Path) : callByValue trail t ≠ .ok (some path) := by
  induction t generalizing trail with
  | app func arg ihf iha =>
    simp only [hasHeadRedex_app, Bool.or_eq_false_iff] at h
    obtain ⟨⟨hvalue, hfunc⟩, _⟩ := h
    intro hpath
    rcases callByValue_app_eq_ok hpath with ⟨htrue, _⟩ | ⟨htrue, _⟩ | ⟨_, hpath⟩
    · cases hvalue.symm.trans htrue
    · cases hvalue.symm.trans htrue
    · exact ihf hfunc (.func :: trail) hpath
  | _ => nofun

end Locate

open Term

/-- The normal policy takes the first redex in preorder, whether or not the head of a function is
looked at first. -/
theorem Policy.normal_locates_first_redex (t : Term) :
    (Policy.normal.locate t = .ok none ↔ ∀ path, ¬ t.HasRedexAt path) ∧
    (∀ path, Policy.normal.locate t = .ok (some path) ↔ t.FirstRedexAt Path.Precedes path) ∧
    Policy.normal.locate t = .ok (Locate.headFirst t) ∧
    (t.hasHeadRedex = true ↔ ∃ path, .body ∉ path ∧ t.HasRedexAt path) ∧
    (t.hasHeadRedex = false → Policy.lazy.locate t = .ok none ∧
      (∀ path, Policy.callByValue.locate t ≠ .ok (some path)) ∧
      (t.Proper → Policy.callByValue.locate t = .ok none)) := by
  refine ⟨normal_locate_eq_none_iff.trans isNormal_iff, fun path => normal_locate_eq_some_iff, ?_,
    hasHeadRedex_iff, ?_⟩
  · rw [normal_locate, Locate.leftmost_eq_headFirst]
  · intro h
    have hvalue := Locate.callByValue_ne_some_of_hasHeadRedex_eq_false h []
    exact ⟨congrArg Except.ok (Locate.lazy_eq_none_of_hasHeadRedex_eq_false h 0), hvalue,
      fun ht => callByValue.locate_eq_none (.inr ht) hvalue⟩

/-- The only redex stands under a binder in the argument of a variable. -/
theorem Policy.normal_locates_first_redex_under_binder :
    Policy.lazy.locate (.app (.var "x") (.lam "y" (.app (.lam "z" (.var "z")) (.var "y")))) =
      .ok none ∧
    Policy.callByValue.locate
      (.app (.var "x") (.lam "y" (.app (.lam "z" (.var "z")) (.var "y")))) = .ok none ∧
    (Term.app (.var "x") (.lam "y" (.app (.lam "z" (.var "z")) (.var "y")))).FirstRedexAt
      Path.Precedes [.arg, .body] := by
  have hlocate : Policy.normal.locate
      (.app (.var "x") (.lam "y" (.app (.lam "z" (.var "z")) (.var "y")))) =
        .ok (some [.arg, .body]) := by cbv
  obtain ⟨_, hfirst, _, _, hweak⟩ := Policy.normal_locates_first_redex
    (.app (.var "x") (.lam "y" (.app (.lam "z" (.var "z")) (.var "y"))))
  obtain ⟨hlazy, _, hvalue⟩ := hweak (by cbv)
  exact ⟨hlazy, hvalue (by decide), (hfirst [.arg, .body]).1 hlocate⟩

end UntypedLambda

import UntypedLambda.Proofs.Confluence
import UntypedLambda.Proofs.Nameless.Standardisation
import UntypedLambda.Proofs.Strategy.Run
/-!
# Which runs find an answer

The normal policy finds the normal form of every term that has one, and the lazy policy finds an
abstraction wherever call by value does, from a closed term. Both are facts about the order of
contractions, which is a matter of nameless terms. What is shown here is that the searches follow that
order: where the leftmost outermost redex of the nameless form is, the normal policy locates it, and
where there is a redex at the head, the lazy policy does.
-/

namespace UntypedLambda

open Relation

namespace Term

variable {t : Term} {scope : List Name} {T : Nameless}

theorem isValue_of_encodeIn (hT : t.encodeIn scope = .ok T) : T.isValue = t.isValue := by
  cases T with
  | var i =>
    obtain ⟨n, rfl, _⟩ := eq_var_of_encodeIn hT
    rfl
  | lam B =>
    obtain ⟨binder, body, rfl, _⟩ := eq_lam_of_encodeIn hT
    rfl
  | app F A =>
    obtain ⟨func, arg, rfl, _⟩ := eq_app_of_encodeIn hT
    rfl

theorem isNormal_iff_of_encodeIn (hT : t.encodeIn scope = .ok T) : T.IsNormal ↔ t.IsNormal := by
  induction T generalizing t scope with
  | var i =>
    obtain ⟨n, rfl, _⟩ := eq_var_of_encodeIn hT
    exact Iff.rfl
  | lam B ih =>
    obtain ⟨binder, body, rfl, hB⟩ := eq_lam_of_encodeIn hT
    rw [Nameless.IsNormal, IsNormal, ih hB]
  | app F A ihF ihA =>
    obtain ⟨func, arg, rfl, hF, hA⟩ := eq_app_of_encodeIn hT
    rw [Nameless.IsNormal, IsNormal, isValue_of_encodeIn hF, ihF hF, ihA hA]

theorem closed_of_freeVars (ht : t.WellFormed) (h : t.freeVars = .ok []) : t.Closed := by
  obtain ⟨names, hnames, hmem⟩ := freeVars_of_plain ht.foreignLeaves_eq_nil
  rw [h] at hnames
  cases hnames
  rw [Closed, List.eq_nil_iff_forall_not_mem]
  intro n hn
  exact List.not_mem_nil ((hmem n).2 hn)

end Term

/-! ### The searches follow the order of contractions -/

namespace Locate

open Term

variable {t : Term} {scope : List Name} {T T' : Nameless}

theorem lazy_of_headContracts (h : T.HeadContracts T') (hT : t.encodeIn scope = .ok T)
    (depth : Nat) :
    ∃ rest, lazy depth t = some (List.replicate depth .func ++ rest) ∧
      Nameless.ContractsAt rest T T' := by
  induction h generalizing t depth with
  | root B A =>
    obtain ⟨func, arg, rfl, hF, _⟩ := eq_app_of_encodeIn hT
    obtain ⟨binder, body, rfl, _⟩ := eq_lam_of_encodeIn hF
    exact ⟨[], by rw [List.append_nil]; rfl, .root B A⟩
  | @func F F' A h ih =>
    obtain ⟨func, arg, rfl, hF, _⟩ := eq_app_of_encodeIn hT
    have hvalue : func.isValue = false := (isValue_of_encodeIn hF).symm.trans h.isValue_eq_false
    obtain ⟨rest, hlazy, hrest⟩ := ih hF (depth + 1)
    refine ⟨.func :: rest, ?_, .func A hrest⟩
    rw [lazy, hvalue, if_neg Bool.false_ne_true, hlazy, List.replicate_succ', List.append_assoc,
      List.singleton_append]

theorem leftmost_of_leftmostContracts (h : T.LeftmostContracts T')
    (hT : t.encodeIn scope = .ok T) :
    ∃ path, leftmost t = some path ∧ Nameless.ContractsAt path T T' := by
  induction h generalizing t scope with
  | root B A =>
    obtain ⟨func, arg, rfl, hF, _⟩ := eq_app_of_encodeIn hT
    obtain ⟨binder, body, rfl, _⟩ := eq_lam_of_encodeIn hF
    exact ⟨[], rfl, .root B A⟩
  | body h ih =>
    obtain ⟨binder, body, rfl, hB⟩ := eq_lam_of_encodeIn hT
    obtain ⟨rest, hfound, hrest⟩ := ih hB
    refine ⟨.body :: rest, ?_, .body hrest⟩
    rw [leftmost, hfound]
    rfl
  | @func F F' A hvalue h ih =>
    obtain ⟨func, arg, rfl, hF, _⟩ := eq_app_of_encodeIn hT
    rw [isValue_of_encodeIn hF] at hvalue
    obtain ⟨rest, hfound, hrest⟩ := ih hF
    refine ⟨.func :: rest, ?_, .func A hrest⟩
    rw [leftmost, hvalue, if_neg Bool.false_ne_true, hfound]
    rfl
  | @arg F A A' hvalue hfunc h ih =>
    obtain ⟨func, arg, rfl, hF, hA⟩ := eq_app_of_encodeIn hT
    rw [isValue_of_encodeIn hF] at hvalue
    -- Nothing is found in the function, so the search goes on in the argument.
    have hnone : leftmost func = none :=
      leftmost_eq_none_iff.2 ((isNormal_iff_of_encodeIn hF).1 hfunc)
    obtain ⟨rest, hfound, hrest⟩ := ih hA
    refine ⟨.arg :: rest, ?_, .arg F hrest⟩
    rw [leftmost, hvalue, if_neg Bool.false_ne_true, hnone, hfound]
    rfl

theorem isValue_of_callByValue_eq_none {trail : Trail Edge} (ht : t.WellFormed) (hclosed : t.Closed)
    (h : callByValue trail t = .ok none) : t.isValue = true := by
  induction t generalizing trail with
  | var name => cases hclosed
  | lam binder body _ => rfl
  | app func arg ihf iha =>
    obtain ⟨hfunc, harg⟩ := List.append_eq_nil_iff.1 hclosed
    rcases callByValue_app_eq_ok h with ⟨_, _, hfound⟩ | ⟨_, hvalue, h⟩ | ⟨hvalue, h⟩
    · cases hfound
    · cases hvalue.symm.trans (iha ht.2 harg h)
    · cases hvalue.symm.trans (ihf ht.1 hfunc h)
  | foreign leaf => exact ht.elim

end Locate

namespace Policy

/-- Whenever the nameless form of a term has a successor, the policy locates the redex whose
contraction leads there. -/
def Follows (policy : Policy) (R : Nameless → Nameless → Prop) : Prop :=
  ∀ {t : Term} {scope : List Name} {T T' : Nameless}, R T T' → t.encodeIn scope = .ok T →
    ∃ path, policy.locate t = .ok (some path) ∧ Nameless.ContractsAt path T T'

theorem lazy_follows : lazy.Follows Nameless.HeadContracts := by
  intro t scope T T' h hT
  obtain ⟨path, hfound, hpath⟩ := Locate.lazy_of_headContracts h hT 0
  exact ⟨path, congrArg Except.ok hfound, hpath⟩

theorem normal_follows : normal.Follows Nameless.LeftmostContracts := by
  intro t scope T T' h hT
  obtain ⟨path, hfound, hpath⟩ := Locate.leftmost_of_leftmostContracts h hT
  exact ⟨path, by rw [normal_locate, hfound], hpath⟩

variable {policy : Policy} {R : Nameless → Nameless → Prop} {t : Term} {scope : List Name}
  {T T' U : Nameless}

theorem Follows.exists_step (hfollows : policy.Follows R) (h : R T T') (ht : t.WellFormed)
    (hT : t.encodeIn scope = .ok T) (mode : Shadowing) :
    ∃ t', ((⟨policy, mode⟩ : Strategy).step t).outcome = .ok (some t') ∧ t'.WellFormed ∧
      t'.encodeIn scope = .ok T' := by
  obtain ⟨path, hlocate, hpath⟩ := hfollows h hT
  obtain ⟨t', hcontracts, hwf⟩ := (hasRedexAt_of_locate hlocate).exists_contractsAt ht mode
  obtain ⟨T'', hT'', hpath'⟩ := hcontracts.encodeIn_eq ht hT
  rw [hpath'.unique hpath] at hT''
  exact ⟨t', Strategy.outcome_step_eq_some_iff.2 ⟨path, hlocate, hcontracts⟩, hwf, hT''⟩

theorem Follows.exists_reaches (hfollows : policy.Follows R) (h : ReflTransGen R T U)
    (ht : t.WellFormed) (hT : t.encodeIn scope = .ok T) (mode : Shadowing) :
    ∃ steps u, (⟨policy, mode⟩ : Strategy).Reaches steps t u ∧ u.encodeIn scope = .ok U := by
  induction h using ReflTransGen.head_induction_on generalizing t with
  | refl => exact ⟨0, t, .refl t, hT⟩
  | head first _ ih =>
    obtain ⟨t', hstep, hwf, hT'⟩ := hfollows.exists_step first ht hT mode
    obtain ⟨steps, u, hreaches, hU⟩ := ih hwf hT'
    exact ⟨steps + 1, u, .head hstep hreaches, hU⟩

end Policy

/-! ### Where the runs end -/

namespace Strategy

open Term

variable {t n v : Term}

theorem exists_reaches_normal (ht : t.WellFormed) (hn : t.Reduces n) (hnormal : n.IsNormal)
    (mode : Shadowing) :
    ∃ k r, (⟨.normal, mode⟩ : Strategy).Reaches k t r ∧ (⟨.normal, mode⟩ : Strategy).Halts r ∧
      r.AlphaEq n := by
  obtain ⟨T, hT⟩ := ht.exists_encodeIn fun _ => id
  obtain ⟨_, N, hN, hreduces⟩ := hn.encodeIn_eq ht hT
  have hNnormal : N.IsNormal := (isNormal_iff_of_encodeIn hN).2 hnormal
  have hleftmost : ReflTransGen Nameless.LeftmostContracts T N :=
    Nameless.leftmost_reduces_of_reduces hreduces hNnormal
  obtain ⟨k, r, hreaches, hr⟩ := Policy.normal_follows.exists_reaches hleftmost ht hT mode
  have hrnormal : r.IsNormal := (isNormal_iff_of_encodeIn hr).1 hNnormal
  have hhalts : (⟨.normal, mode⟩ : Strategy).Halts r :=
    halts_iff_locate_eq_none.2 (Policy.normal_locate_eq_none_iff.2 hrnormal)
  exact ⟨k, r, hreaches, hhalts, alphaUnder_of_encodeIn_eq hr hN⟩

theorem exists_reaches_lazy (ht : t.WellFormed) (hv : t.Reduces v) (hvalue : v.isValue = true)
    (mode : Shadowing) :
    ∃ k w, (⟨.lazy, mode⟩ : Strategy).Reaches k t w ∧ (⟨.lazy, mode⟩ : Strategy).Halts w ∧
      w.isValue = true := by
  obtain ⟨T, hT⟩ := ht.exists_encodeIn fun _ => id
  obtain ⟨_, V, hV, hreduces⟩ := hv.encodeIn_eq ht hT
  cases v with
  | lam binder body =>
    obtain ⟨B, _, rfl⟩ := encodeIn_lam_eq_ok_iff.1 hV
    obtain ⟨B', hhead⟩ := Nameless.exists_head_reduces_lam hreduces
    obtain ⟨k, w, hreaches, hw⟩ := Policy.lazy_follows.exists_reaches hhead ht hT mode
    obtain ⟨binder', body', rfl, _⟩ := eq_lam_of_encodeIn hw
    exact ⟨k, _, hreaches, halts_iff_locate_eq_none.2 rfl, rfl⟩
  | _ => cases hvalue

/-- Evaluation ends, with a budget and without one, at the given term up to the choice of bound
names. -/
def EvaluatesTo (S : Strategy) (t n : Term) : Prop :=
  ∃ (budget fuel : Nat) (r : Term), (S.evaluateBounded budget t).outcome = .ok r ∧
    (S.evaluate fuel t).outcome = .ok (some r) ∧ r.AlphaEq n

theorem evaluatesTo_of_reduces (ht : t.WellFormed) (hn : t.Reduces n) (hnormal : n.IsNormal)
    (mode : Shadowing) : EvaluatesTo ⟨.normal, mode⟩ t n := by
  obtain ⟨k, r, hreaches, hhalts, halpha⟩ := exists_reaches_normal ht hn hnormal mode
  obtain ⟨hbounded, hevaluate⟩ := hreaches.evaluations_of_halts hhalts
  exact ⟨k, k + 1, r, hbounded, hevaluate, halpha⟩

/-- Normal evaluation finds every normal form that any contractions lead to, and so ends where full
evaluation ends. -/
theorem normal_normalises (ht : t.WellFormed) (mode : Shadowing) :
    (∀ n, t.Reduces n → n.IsNormal → EvaluatesTo ⟨.normal, mode⟩ t n) ∧
    ∀ (mode' : Shadowing) (fuel : Nat) (n : Term),
      ((⟨.full, mode'⟩ : Strategy).evaluate fuel t).outcome = .ok (some n) →
      EvaluatesTo ⟨.normal, mode⟩ t n := by
  refine ⟨fun n hn hnormal => evaluatesTo_of_reduces ht hn hnormal mode, ?_⟩
  intro mode' fuel n hn
  obtain ⟨_, _, hreaches, hhalts⟩ := evaluateFrom_eq_some_iff.1 hn
  exact evaluatesTo_of_reduces ht hreaches.reduces (isNormal_of_halts hhalts (.inr rfl)) mode

/-- The argument has no normal form, and it is discarded under a binder. -/
theorem normal_normalises_divergent_argument :
    EvaluatesTo ⟨.normal, .rename⟩
      (.lam "z" (.app (.lam "x" (.var "z")) (.app (.lam "x" (.app (.var "x") (.var "x")))
        (.lam "x" (.app (.var "x") (.var "x")))))) (.lam "z" (.var "z")) := by
  have hcontracts : (Term.lam "z" (.app (.lam "x" (.var "z"))
      (.app (.lam "x" (.app (.var "x") (.var "x")))
        (.lam "x" (.app (.var "x") (.var "x")))))).Contracts (.lam "z" (.var "z")) := by
    refine ⟨[.body], _, .var "z", .stop, rfl, rfl, ?_, rfl⟩
    decide +kernel
  exact (normal_normalises (by decide) .rename).1 _ (.head hcontracts (.refl _)) trivial

/-- Lazy evaluation of a closed term ends wherever call by value does, at an abstraction that has a
reduct in common with the answer of call by value. -/
theorem lazy_evaluates_of_callByValue (ht : t.WellFormed) (hclosed : t.freeVars = .ok [])
    (mode₁ mode₂ : Shadowing) {fuel : Nat} {v : Term}
    (hv : ((⟨.callByValue, mode₁⟩ : Strategy).evaluate fuel t).outcome = .ok (some v)) :
    ∃ (fuel' : Nat) (w : Term),
      ((⟨.lazy, mode₂⟩ : Strategy).evaluate fuel' t).outcome = .ok (some w) ∧
      w.isValue = true ∧ v.Joinable w := by
  obtain ⟨_, _, hreachesv, hhalts⟩ := evaluateFrom_eq_some_iff.1 hv
  -- Call by value gets stuck at open terms as well; a closed one has come to an abstraction.
  have hvclosed : v.Closed := hreachesv.closed ht (closed_of_freeVars ht hclosed)
  have hvalue : v.isValue = true := Locate.isValue_of_callByValue_eq_none (hreachesv.wellFormed ht)
    hvclosed (halts_iff_locate_eq_none.1 hhalts)
  obtain ⟨k, w, hreachesw, hwhalts, hw⟩ := exists_reaches_lazy ht hreachesv.reduces hvalue mode₂
  exact ⟨k + 1, w, (hreachesw.evaluations_of_halts hwhalts).2, hw,
    joinable_of_reduces ht hreachesv.reduces hreachesw.reduces⟩

/-- Call by value brings the argument to an abstraction before it is put below the binder. -/
theorem lazy_evaluates_of_callByValue_const :
    ∃ (fuel' : Nat) (w : Term), ((⟨.lazy, .rename⟩ : Strategy).evaluate fuel'
        (.app (.lam "x" (.lam "y" (.var "x")))
          (.app (.lam "z" (.var "z")) (.lam "z" (.var "z"))))).outcome = .ok (some w) ∧
      w.isValue = true ∧ (Term.lam "y" (.lam "z" (.var "z"))).Joinable w := by
  have hclosed : (Term.app (.lam "x" (.lam "y" (.var "x")))
      (.app (.lam "z" (.var "z")) (.lam "z" (.var "z")))).freeVars = .ok [] := by cbv
  have hv : ((⟨.callByValue, .stop⟩ : Strategy).evaluate 3
      (.app (.lam "x" (.lam "y" (.var "x")))
        (.app (.lam "z" (.var "z")) (.lam "z" (.var "z"))))).outcome =
      .ok (some (.lam "y" (.lam "z" (.var "z")))) := by decide +kernel
  exact lazy_evaluates_of_callByValue (by decide) hclosed .stop .rename hv

end Strategy

end UntypedLambda

import UntypedLambda.Proofs.Positions
/-!
# Replacing a subterm

Following a path and replacing what is at its end are a lens. The laws hold at a single edge, where they
are read off the sorts of node, and go from there to paths by induction: a replacement changes one child
of each node on the way down, and the node is otherwise as it was.

Two paths of which neither begins the other have a common part and then take different edges. Behind the
common part a replacement on one side does not see the other side, whatever follows.
-/

namespace UntypedLambda.Term

variable {t t' left right next part : Term} {a b new : Term} {path other : Path} {edge edge' : Edge}
  {fault : Fault}

/-! ### One edge -/

def edges : Term → List Edge
  | var _ => []
  | lam _ _ => [.body]
  | app _ _ => [.func, .arg]
  | foreign _ => []

theorem child_eq_error_iff :
    t.child edge = .error fault ↔ edge ∉ t.edges ∧ fault = .noPart t.kind edge.word := by
  cases t <;> cases edge <;> simp [child, edges, kind, eq_comm]

theorem child_setChild (h : t.child edge = .ok next) (new : Term) :
    (t.setChild edge new).child edge = .ok new := by
  rcases child_eq_ok h with ⟨binder, rfl, rfl⟩ | ⟨arg, rfl, rfl⟩ | ⟨func, rfl, rfl⟩ <;> rfl

theorem child_setChild_of_ne (hne : edge ≠ edge') (t new : Term) :
    (t.setChild edge new).child edge' = t.child edge' := by
  revert hne
  cases t <;> cases edge <;> cases edge' <;> simp [setChild, child, kind]

theorem setChild_child (h : t.child edge = .ok next) : t.setChild edge next = t := by
  rcases child_eq_ok h with ⟨binder, rfl, rfl⟩ | ⟨arg, rfl, rfl⟩ | ⟨func, rfl, rfl⟩ <;> rfl

theorem setChild_setChild (t : Term) (edge : Edge) (a b : Term) :
    (t.setChild edge a).setChild edge b = t.setChild edge b := by
  cases t <;> cases edge <;> rfl

theorem setChild_comm (hne : edge ≠ edge') (t a b : Term) :
    (t.setChild edge a).setChild edge' b = (t.setChild edge' b).setChild edge a := by
  revert hne
  cases t <;> cases edge <;> cases edge' <;> simp [setChild]

/-! ### Where a path leads nowhere -/

theorem replaceAt_cons_eq_ok_iff :
    t.replaceAt (edge :: path) new = .ok t' ↔ ∃ next next', t.child edge = .ok next ∧
      next.replaceAt path new = .ok next' ∧ t' = t.setChild edge next' := by
  simp only [replaceAt_cons, bind_eq_ok_iff, pure, Except.pure, Except.ok.injEq, exists_and_left]
  simp only [eq_comm]

theorem subterm_cons_of_child (h : t.child edge = .ok next) (path : Path) :
    t.subterm (edge :: path) = next.subterm path := by
  rw [subterm, h]
  rfl

theorem replaceAt_cons_of_child (h : t.child edge = .ok next) (path : Path) (new : Term) :
    t.replaceAt (edge :: path) new =
      next.replaceAt path new >>= fun replaced => pure (t.setChild edge replaced) := by
  rw [replaceAt_cons, h]
  rfl

theorem subterm_eq_error_iff :
    t.subterm path = .error fault ↔ ∃ front edge rest part, path = front ++ edge :: rest ∧
      t.subterm front = .ok part ∧ edge ∉ part.edges ∧ fault = .noPart part.kind edge.word := by
  constructor
  · intro h
    induction path generalizing t with
    | nil => cases h
    | cons edge path ih =>
      rcases bind_eq_error_iff.1 h with hchild | ⟨next, hnext, hrest⟩
      · obtain ⟨hedge, hfault⟩ := child_eq_error_iff.1 hchild
        exact ⟨[], edge, path, t, rfl, rfl, hedge, hfault⟩
      · obtain ⟨front, edge', rest, part, rfl, hpart, hedge⟩ := ih hrest
        exact ⟨edge :: front, edge', rest, part, rfl, bind_eq_ok_iff.2 ⟨next, hnext, hpart⟩, hedge⟩
  · rintro ⟨front, edge, rest, part, rfl, hpart, hedge⟩
    have hstuck : part.subterm (edge :: rest) = .error fault :=
      bind_eq_error_iff.2 (.inl (child_eq_error_iff.2 hedge))
    rw [subterm_append, hpart]
    exact hstuck

theorem replaceAt_eq_error_iff :
    t.replaceAt path new = .error fault ↔ t.subterm path = .error fault := by
  induction path generalizing t with
  | nil => exact iff_of_false nofun nofun
  | cons edge path ih =>
    cases hchild : t.child edge with
    | error fault' =>
      rw [replaceAt_cons, subterm, hchild]
      rfl
    | ok next =>
      rw [subterm_cons_of_child hchild, replaceAt_cons_of_child hchild, bind_eq_error_iff, ih]
      apply or_iff_left
      rintro ⟨replaced, _, h⟩
      cases h

/-! ### Along one path -/

theorem exists_replaceAt (h : t.subterm path = .ok part) (new : Term) :
    ∃ t', t.replaceAt path new = .ok t' := by
  cases hreplace : t.replaceAt path new with
  | ok t' => exact ⟨t', rfl⟩
  | error fault =>
    rw [replaceAt_eq_error_iff, h] at hreplace
    cases hreplace

theorem subterm_replaceAt (h : t.replaceAt path new = .ok t') : t'.subterm path = .ok new := by
  induction path generalizing t t' with
  | nil =>
    cases h
    rfl
  | cons edge path ih =>
    obtain ⟨next, next', hnext, hreplace, rfl⟩ := replaceAt_cons_eq_ok_iff.1 h
    rw [subterm_cons_of_child (child_setChild hnext next')]
    exact ih hreplace

theorem replaceAt_subterm (h : t.subterm path = .ok part) : t.replaceAt path part = .ok t := by
  induction path generalizing t with
  | nil =>
    cases h
    rfl
  | cons edge path ih =>
    obtain ⟨next, hnext, hpart⟩ := bind_eq_ok_iff.1 h
    exact replaceAt_cons_eq_ok_iff.2 ⟨next, next, hnext, ih hpart, (setChild_child hnext).symm⟩

theorem replaceAt_replaceAt (h : t.replaceAt path a = .ok t') (b : Term) :
    t'.replaceAt path b = t.replaceAt path b := by
  induction path generalizing t t' with
  | nil => rfl
  | cons edge path ih =>
    obtain ⟨next, next', hnext, hreplace, rfl⟩ := replaceAt_cons_eq_ok_iff.1 h
    rw [replaceAt_cons_of_child (child_setChild hnext next'), replaceAt_cons_of_child hnext,
      ih hreplace]
    simp only [setChild_setChild]

theorem replaceAt_append (h : t.subterm path = .ok part) (rest : Path) (new : Term) :
    t.replaceAt (path ++ rest) new =
      part.replaceAt rest new >>= fun replaced => t.replaceAt path replaced := by
  induction path generalizing t with
  | nil =>
    cases h
    exact (bind_pure _).symm
  | cons edge path ih =>
    obtain ⟨next, hnext, hpart⟩ := bind_eq_ok_iff.1 h
    rw [List.cons_append, replaceAt_cons_of_child hnext, ih hpart, bind_assoc]
    simp only [replaceAt_cons_of_child hnext]

/-! ### Along two paths -/

section Apart

variable (hpath : ¬ path <+: other) (hother : ¬ other <+: path)

include hpath hother

theorem subterm_replaceAt_of_apart (h : t.replaceAt path new = .ok t') :
    t'.subterm other = t.subterm other := by
  induction path generalizing t t' other with
  | nil => exact absurd List.nil_prefix hpath
  | cons edge path ih =>
    cases other with
    | nil => exact absurd List.nil_prefix hother
    | cons edge' other =>
      obtain ⟨next, next', hnext, hreplace, rfl⟩ := replaceAt_cons_eq_ok_iff.1 h
      by_cases hedge : edge = edge'
      · subst hedge
        rw [List.prefix_cons_inj] at hpath hother
        rw [subterm_cons_of_child (child_setChild hnext next'), subterm_cons_of_child hnext]
        exact ih hpath hother hreplace
      · rw [subterm, subterm, child_setChild_of_ne hedge]

theorem replaceAt_comm (hleft : t.replaceAt path a = .ok left)
    (hright : t.replaceAt other b = .ok right) :
    ∃ t', left.replaceAt other b = .ok t' ∧ right.replaceAt path a = .ok t' := by
  induction path generalizing t left right other with
  | nil => exact absurd List.nil_prefix hpath
  | cons edge path ih =>
    cases other with
    | nil => exact absurd List.nil_prefix hother
    | cons edge' other =>
      obtain ⟨next, leftNext, hnext, hleftNext, rfl⟩ := replaceAt_cons_eq_ok_iff.1 hleft
      obtain ⟨next', rightNext, hnext', hrightNext, rfl⟩ := replaceAt_cons_eq_ok_iff.1 hright
      by_cases hedge : edge = edge'
      · subst hedge
        obtain rfl := Except.ok.inj (hnext.symm.trans hnext')
        rw [List.prefix_cons_inj] at hpath hother
        obtain ⟨both, hboth, hboth'⟩ := ih hpath hother hleftNext hrightNext
        refine ⟨t.setChild edge both, ?_, ?_⟩
        · refine replaceAt_cons_eq_ok_iff.2 ⟨leftNext, both, child_setChild hnext _, hboth, ?_⟩
          rw [setChild_setChild]
        · refine replaceAt_cons_eq_ok_iff.2 ⟨rightNext, both, child_setChild hnext _, hboth', ?_⟩
          rw [setChild_setChild]
      · -- The paths part here: each replacement takes place in a child that the other leaves alone.
        refine ⟨(t.setChild edge leftNext).setChild edge' rightNext, ?_, ?_⟩
        · refine replaceAt_cons_eq_ok_iff.2 ⟨next', rightNext, ?_, hrightNext, rfl⟩
          rw [child_setChild_of_ne hedge, hnext']
        · refine replaceAt_cons_eq_ok_iff.2 ⟨next, leftNext, ?_, hleftNext, setChild_comm hedge t _ _⟩
          rw [child_setChild_of_ne (Ne.symm hedge), hnext]

end Apart

/-- Following a path and replacing what is at its end form a lawful lens, with the same faults, in
which replacements at paths apart do not meet. -/
theorem replaceAt_lawful (t : Term) (path other : Path) (a b : Term) :
    (∀ fault, t.replaceAt path a = .error fault ↔ t.subterm path = .error fault) ∧
    (∀ fault, t.subterm path = .error fault ↔ ∃ front edge rest part,
      path = front ++ edge :: rest ∧ t.subterm front = .ok part ∧ edge ∉ part.edges ∧
      fault = .noPart part.kind edge.word) ∧
    (∀ part, t.subterm path = .ok part → ∃ left, t.replaceAt path a = .ok left ∧
      left.subterm path = .ok a ∧ t.replaceAt path part = .ok t ∧
      (∃ last, left.replaceAt path b = .ok last ∧ t.replaceAt path b = .ok last) ∧
      t.replaceAt (path ++ other) a =
        part.replaceAt other a >>= fun replaced => t.replaceAt path replaced) ∧
    ∀ part part', t.subterm path = .ok part → t.subterm other = .ok part' →
      ¬ path <+: other → ¬ other <+: path → ∃ left right both,
        t.replaceAt path a = .ok left ∧ left.subterm other = .ok part' ∧
        t.replaceAt other b = .ok right ∧ right.subterm path = .ok part ∧
        left.replaceAt other b = .ok both ∧ right.replaceAt path a = .ok both := by
  refine ⟨fun fault => replaceAt_eq_error_iff, fun fault => subterm_eq_error_iff, ?_, ?_⟩
  · intro part hpart
    obtain ⟨left, hleft⟩ := exists_replaceAt hpart a
    obtain ⟨last, hlast⟩ := exists_replaceAt hpart b
    have hagain : left.replaceAt path b = .ok last := (replaceAt_replaceAt hleft b).trans hlast
    exact ⟨left, hleft, subterm_replaceAt hleft, replaceAt_subterm hpart, ⟨last, hagain, hlast⟩,
      replaceAt_append hpart other a⟩
  · intro part part' hpart hpart' hpath hother
    obtain ⟨left, hleft⟩ := exists_replaceAt hpart a
    obtain ⟨right, hright⟩ := exists_replaceAt hpart' b
    obtain ⟨both, hboth, hboth'⟩ := replaceAt_comm hpath hother hleft hright
    refine ⟨left, right, both, hleft, ?_, hright, ?_, hboth, hboth'⟩
    · rw [subterm_replaceAt_of_apart hpath hother hleft, hpart']
    · rw [subterm_replaceAt_of_apart hother hpath hright, hpart]

/-- The paths part below a binder, and one of them ends at a foreign leaf. -/
theorem replaceAt_lawful_below_binder :
    ∃ left both, (lam "x" (app (app (var "x") (foreign .bare)) (var "y"))).replaceAt
        [.body, .func, .arg] (var "x") = .ok left ∧
      left.subterm [.body, .arg] = .ok (var "y") ∧
      left.replaceAt [.body, .arg] (foreign .bare) = .ok both ∧
      both = lam "x" (app (app (var "x") (var "x")) (foreign .bare)) := by
  obtain ⟨_, _, _, hapart⟩ := replaceAt_lawful
    (lam "x" (app (app (var "x") (foreign .bare)) (var "y"))) [.body, .func, .arg] [.body, .arg]
    (var "x") (foreign .bare)
  obtain ⟨left, right, both, hleft, hother, _, _, hboth, _⟩ :=
    hapart _ _ rfl rfl (by decide) (by decide)
  refine ⟨left, both, hleft, hother, hboth, ?_⟩
  cases hleft
  cases hboth
  rfl

end UntypedLambda.Term

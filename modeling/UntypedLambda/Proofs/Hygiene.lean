import UntypedLambda.Proofs.Alpha
import UntypedLambda.Proofs.Renaming
/-!
# Renaming is hygienic

An abstraction whose binder was renamed is alpha-equivalent to what it was, and the old name is gone
from it. All binders that had this name have become marked variants of it, and no two of them alike:
the count of marks only grows while the term is walked through in preorder, over nested binders and
from the function of an application on to its argument.

What is proved of a whole term is proved of each subterm with the counts between which the walk goes
through it. Subterms that stand side by side take intervals that do not overlap, and so do a binder and
what is below it; their names differ for that reason.
-/

namespace UntypedLambda.Term

variable {name : Name} {avoid : List Name} {low high : Int} {t t' part body next : Term}
  {path other : Path}

/-- A name is retired from a term in the course of a walk that takes the count from one number to
another. -/
def RetiresWithin (name : Name) (avoid : List Name) (low high : Int) (t t' : Term) : Prop :=
  ∃ current count count', low ≤ count ∧ count' ≤ high ∧ Retires name avoid t current count t' count'

/-! ### The walk at each subterm -/

theorem RetiresWithin.child (h : RetiresWithin name avoid low high t t') {edge : Edge}
    (hnext : t.child edge = .ok next) :
    ∃ next', t'.child edge = .ok next' ∧ RetiresWithin name avoid low high next next' := by
  obtain ⟨current, count, count', hlow, hhigh, hretires⟩ := h
  rcases child_eq_ok hnext with ⟨binder, rfl, rfl⟩ | ⟨arg, rfl, rfl⟩ | ⟨func, rfl, rfl⟩
  · cases hretires with
    | minted _ hbody =>
      have hminted := lt_mint_snd name count avoid
      exact ⟨_, rfl, _, _, _, by omega, hhigh, hbody⟩
    | passed _ hbody => exact ⟨_, rfl, _, _, _, hlow, hhigh, hbody⟩
  · cases hretires with
    | app hfunc harg => exact ⟨_, rfl, _, _, _, hlow, Int.le_trans harg.count_le hhigh, hfunc⟩
  · cases hretires with
    | app hfunc harg => exact ⟨_, rfl, _, _, _, Int.le_trans hlow hfunc.count_le, hhigh, harg⟩

theorem RetiresWithin.subterm (h : RetiresWithin name avoid low high t t')
    (hpart : t.subterm path = .ok part) :
    ∃ part', t'.subterm path = .ok part' ∧ RetiresWithin name avoid low high part part' := by
  induction path generalizing t t' with
  | nil =>
    cases hpart
    exact ⟨t', rfl, h⟩
  | cons edge path ih =>
    obtain ⟨next, hnext, hpart⟩ := bind_eq_ok_iff.1 hpart
    obtain ⟨next', hnext', hwithin⟩ := h.child hnext
    obtain ⟨part', hpart', hwithin'⟩ := ih hwithin hpart
    exact ⟨part', bind_eq_ok_iff.2 ⟨next', hnext', hpart'⟩, hwithin'⟩

theorem RetiresWithin.exists_marks (h : RetiresWithin name avoid low high (lam name body) t') :
    ∃ marks body', low < marks ∧ marks ≤ high ∧ marked name marks ∉ avoid ∧
      t' = lam (marked name marks) body' ∧ RetiresWithin name avoid marks high body body' := by
  obtain ⟨current, count, count', hlow, hhigh, hretires⟩ := h
  cases hretires with
  | @minted _ body' _ _ _ hbody =>
    have hlt := lt_mint_snd name count avoid
    have hle := hbody.count_le
    refine ⟨(mint name count avoid).2, body', by omega, by omega, ?_, ?_, ?_⟩
    · rw [← mint_fst]
      exact mint_notMem name count avoid
    · rw [← mint_fst]
    · exact ⟨_, _, _, Int.le_refl _, hhigh, hbody⟩
  | passed hne => exact absurd rfl hne

theorem RetiresWithin.exists_middle {func arg : Term}
    (h : RetiresWithin name avoid low high (app func arg) t') :
    ∃ func' arg' middle, t' = app func' arg' ∧ RetiresWithin name avoid low middle func func' ∧
      RetiresWithin name avoid middle high arg arg' := by
  obtain ⟨current, count, count', hlow, hhigh, hretires⟩ := h
  cases hretires with
  | @app _ func' _ arg' _ _ middle _ hfunc harg =>
    exact ⟨func', arg', middle, rfl, ⟨_, _, _, hlow, Int.le_refl _, hfunc⟩,
      ⟨_, _, _, Int.le_refl _, hhigh, harg⟩⟩

theorem RetiresWithin.exists_marks_at (h : RetiresWithin name avoid low high t t')
    (hname : t.binderAt path = some name) :
    ∃ marks, low < marks ∧ marks ≤ high ∧ marked name marks ∉ avoid ∧
      t'.binderAt path = some (marked name marks) := by
  obtain ⟨body, hbody⟩ := binderAt_eq_some_iff.1 hname
  obtain ⟨part', hpart', hwithin⟩ := h.subterm hbody
  obtain ⟨marks, body', hlow, hhigh, hnot, rfl, _⟩ := hwithin.exists_marks
  exact ⟨marks, hlow, hhigh, hnot, binderAt_eq_some_iff.2 ⟨body', hpart'⟩⟩

/-- Of two binders of the retired name, the one that comes first in preorder is given fewer marks. -/
theorem RetiresWithin.marks_lt (h : RetiresWithin name avoid low high t t')
    (hbefore : path.Precedes other) (hpath : t.binderAt path = some name)
    (hother : t.binderAt other = some name) :
    ∃ marks marks', low < marks ∧ marks < marks' ∧ t'.binderAt path = some (marked name marks) ∧
      t'.binderAt other = some (marked name marks') := by
  unfold Path.Precedes at hbefore
  induction hbefore generalizing t t' with
  | @nil edge rest =>
    -- The first binder is the root, and the second is below it.
    obtain ⟨body, hbody⟩ := binderAt_eq_some_iff.1 hpath
    cases hbody
    obtain ⟨marks, body', hlow, _, _, rfl, hwithin⟩ := h.exists_marks
    rcases binderAt_lam_eq_some_iff.1 hother with ⟨hnil, _⟩ | ⟨rest', hcons, hbinder⟩
    · cases hnil
    · cases hcons
      obtain ⟨marks', hlt, _, _, hmarks'⟩ := hwithin.exists_marks_at hbinder
      exact ⟨marks, marks', hlow, hlt, rfl, hmarks'⟩
  | @cons edge rest rest' _ ih =>
    obtain ⟨next, hnext, hrest⟩ := binderAt_cons_eq_some_iff.1 hpath
    obtain ⟨_, heq, hrest'⟩ := binderAt_cons_eq_some_iff.1 hother
    obtain rfl := Except.ok.inj (hnext.symm.trans heq)
    obtain ⟨next', hnext', hwithin⟩ := h.child hnext
    obtain ⟨marks, marks', hlow, hlt, hmarks, hmarks'⟩ := ih hwithin hrest hrest'
    exact ⟨marks, marks', hlow, hlt, binderAt_cons_eq_some_iff.2 ⟨next', hnext', hmarks⟩,
      binderAt_cons_eq_some_iff.2 ⟨next', hnext', hmarks'⟩⟩
  | @rel edge rest edge' rest' hleft =>
    obtain ⟨rfl, rfl⟩ := hleft
    obtain ⟨func, hfunc, hrest⟩ := binderAt_cons_eq_some_iff.1 hpath
    rcases child_eq_ok hfunc with ⟨_, hedge, _⟩ | ⟨arg, _, rfl⟩ | ⟨_, hedge, _⟩
    · cases hedge
    · obtain ⟨func', arg', middle, rfl, hbefore, hafter⟩ := h.exists_middle
      obtain ⟨marks, hlow, hmiddle, _, hmarks⟩ := hbefore.exists_marks_at hrest
      obtain ⟨marks', hmiddle', _, _, hmarks'⟩ := hafter.exists_marks_at hother
      exact ⟨marks, marks', hlow, Int.lt_of_le_of_lt hmiddle hmiddle', hmarks, hmarks'⟩
    · cases hedge

theorem RetiresWithin.exists_marking (h : RetiresWithin name avoid 0 high t t') :
    ∃ marks : Path → Int,
      (∀ path, t.binderAt path = some name → 0 < marks path ∧
        t'.binderAt path = some (marked name (marks path)) ∧ marked name (marks path) ∉ avoid) ∧
      ∀ path other, t.binderAt path = some name → t.binderAt other = some name →
        path.Precedes other → marks path < marks other := by
  have hexists : ∀ path, t.binderAt path = some name → ∃ marks, 0 < marks ∧
      t'.binderAt path = some (marked name marks) ∧ marked name marks ∉ avoid := by
    intro path hname
    obtain ⟨marks, hlow, _, hnot, hmarks⟩ := h.exists_marks_at hname
    exact ⟨marks, hlow, hmarks, hnot⟩
  choose! marks hmarks using hexists
  refine ⟨marks, hmarks, ?_⟩
  intro path other hpath hother hbefore
  obtain ⟨m, m', hm, hlt, hname, hname'⟩ := h.marks_lt hbefore hpath hother
  obtain ⟨hpos, hmarked, _⟩ := hmarks path hpath
  obtain ⟨hpos', hmarked', _⟩ := hmarks other hother
  have heq : marks path = m := marked_inj (Option.some.inj (hmarked.symm.trans hname)) hpos hm
  have heq' : marks other = m' :=
    marked_inj (Option.some.inj (hmarked'.symm.trans hname')) hpos' (Int.lt_trans hm hlt)
  rw [heq, heq']
  exact hlt

/-! ### What else becomes of the names -/

theorem RetiresWithin.binderAt_eq {binder : Name} (h : RetiresWithin name avoid low high t t')
    (hbinder : t.binderAt path = some binder) (hne : binder ≠ name) :
    t'.binderAt path = some binder := by
  obtain ⟨body, hbody⟩ := binderAt_eq_some_iff.1 hbinder
  obtain ⟨part', hpart', _, _, _, _, _, hretires⟩ := h.subterm hbody
  cases hretires with
  | minted => exact absurd rfl hne
  | @passed _ _ _ body' => exact binderAt_eq_some_iff.2 ⟨body', hpart'⟩

theorem RetiresWithin.subterm_var_eq {n : Name} (h : RetiresWithin name avoid low high t t')
    (hvar : t.subterm path = .ok (var n)) (hne : n ≠ name) : t'.subterm path = .ok (var n) := by
  obtain ⟨part', hpart', _, _, _, _, _, hretires⟩ := h.subterm hvar
  cases hretires with
  | current => exact absurd rfl hne
  | other => exact hpart'

theorem Retires.notMem_labels {current : Name} {count count' : Int}
    (h : Retires name avoid t current count t' count') (hcurrent : current ≠ name)
    (hname : name ∈ avoid) : name ∉ t'.labels := by
  induction h with
  | current => simpa [labels] using hcurrent.symm
  | other hne => simpa [labels] using hne.symm
  | @minted _ _ _ count _ _ ih =>
    have hminted : (mint name count avoid).1 ≠ name := fun heq =>
      mint_notMem name count avoid (heq.symm ▸ hname)
    rw [labels, List.mem_cons, not_or]
    exact ⟨hminted.symm, ih hminted⟩
  | passed hne _ ih =>
    rw [labels, List.mem_cons, not_or]
    exact ⟨hne.symm, ih hcurrent⟩
  | app _ _ ihf iha =>
    rw [labels, List.mem_append, not_or]
    exact ⟨ihf hcurrent, iha hcurrent⟩

/-- Renaming the binder of an abstraction is an alpha-conversion that removes its name: all binders
of that name get distinct new ones, in preorder, and everything else is kept. -/
theorem rename_hygienic {binder : Name} {body : Term} (hlam : (lam binder body).WellFormed)
    (avoid : List Name) :
    ∃ (r : Term) (names : List Name) (marks : Path → Int),
      ((lam binder body).rename avoid).outcome = .ok r ∧ body.allNames = .ok names ∧
      (lam binder body).AlphaEq r ∧ r.shape = (lam binder body).shape ∧ binder ∉ r.labels ∧
      (∀ path, (lam binder body).binderAt path = some binder → 0 < marks path ∧
        r.binderAt path = some (marked binder (marks path)) ∧
        marked binder (marks path) ∉ avoid ∧ marked binder (marks path) ∉ names ∧
        marked binder (marks path) ≠ binder) ∧
      (∀ path other, (lam binder body).binderAt path = some binder →
        (lam binder body).binderAt other = some binder → path.Precedes other →
        marks path < marks other) ∧
      (∀ path other, (lam binder body).binderAt path = some binder →
        (lam binder body).binderAt other = some binder → path ≠ other →
        r.binderAt path ≠ r.binderAt other) ∧
      (∀ path name, (lam binder body).binderAt path = some name → name ≠ binder →
        r.binderAt path = some name) ∧
      ∀ path name, (lam binder body).subterm path = .ok (var name) → name ≠ binder →
        r.subterm path = .ok (var name) := by
  obtain ⟨fresh, body', hrefresh, _, _, _, hsame⟩ := exists_refresh hlam.1 hlam.2 avoid
  obtain ⟨names, count, hnames, hfresh, hretires⟩ := retires_of_refresh hrefresh
  have hwithin : RetiresWithin binder (avoid ++ names ++ [binder]) 0 count (lam binder body)
      (lam fresh body') := ⟨binder, 0, count, Int.le_refl _, Int.le_refl _, hretires binder⟩
  have hbinder : fresh ≠ binder := fun heq =>
    hfresh (List.mem_append_right _ (List.mem_singleton.2 heq))
  have halpha : (lam binder body).AlphaEq (lam fresh body') := hsame
  obtain ⟨marks, hmarks, hlt⟩ := hwithin.exists_marking
  refine ⟨lam fresh body', names, marks, outcome_rename_of_refresh hrefresh, hnames, halpha,
    (AlphaUnder.shape_eq halpha).symm, ?_, ?_, hlt, ?_, ?_, ?_⟩
  · exact (hretires fresh).notMem_labels hbinder (List.mem_append_right _ List.mem_cons_self)
  · intro path hpath
    obtain ⟨hpos, hmarked, hnot⟩ := hmarks path hpath
    rw [List.mem_append, List.mem_append, List.mem_singleton, not_or, not_or] at hnot
    exact ⟨hpos, hmarked, hnot.1.1, hnot.1.2, hnot.2⟩
  · intro path other hpath hother hne heq
    obtain ⟨hpos, hmarked, _⟩ := hmarks path hpath
    obtain ⟨hpos', hmarked', _⟩ := hmarks other hother
    rw [hmarked, hmarked'] at heq
    have hsame : marks path = marks other := marked_inj (Option.some.inj heq) hpos hpos'
    obtain ⟨_, hpart⟩ := binderAt_eq_some_iff.1 hpath
    obtain ⟨_, hpart'⟩ := binderAt_eq_some_iff.1 hother
    rcases precedes_or_precedes hpart hpart' hne with hbefore | hbefore
    · have hbelow := hlt path other hpath hother hbefore
      omega
    · have hbelow := hlt other path hother hpath hbefore
      omega
  · intro path name hname hne
    exact hwithin.binderAt_eq hname hne
  · intro path name hvar hne
    exact hwithin.subterm_var_eq hvar hne

/-- Two binders side by side reuse the name of the outer one, and its first variants are taken. -/
theorem rename_hygienic_siblings :
    ∃ r, ((lam "x" (app (lam "x" (var "x")) (app (var "x") (lam "x" (var "x'"))))).rename
        ["x''"]).outcome = .ok r ∧
      (lam "x" (app (lam "x" (var "x")) (app (var "x") (lam "x" (var "x'"))))).AlphaEq r ∧
      "x" ∉ r.labels ∧ r.binderAt [.body, .func] ≠ r.binderAt [.body, .arg, .arg] ∧
      r.subterm [.body, .arg, .arg, .body] = .ok (var "x'") := by
  have hlam : (lam "x" (app (lam "x" (var "x"))
      (app (var "x") (lam "x" (var "x'"))))).WellFormed := by decide
  obtain ⟨r, names, marks, hr, _, halpha, _, hgone, _, _, hdistinct, _, hvar⟩ :=
    rename_hygienic hlam ["x''"]
  exact ⟨r, hr, halpha, hgone, hdistinct _ _ rfl rfl (by decide), hvar _ _ rfl (by decide)⟩

end UntypedLambda.Term

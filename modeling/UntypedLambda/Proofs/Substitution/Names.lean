import Mathlib.Data.Finset.Dedup
import Mathlib.Data.Finset.Lattice.Basic
import Mathlib.Data.Finset.SDiff
import UntypedLambda.Proofs.Substitution.Grafting
/-!
# The names in a result

What a substitution does to the names of a term. A binder that is renamed takes all binders of its name
below it along, also those below a binder of the target where a substitution would have stopped. Which
binders come out with another name is therefore not decided where they stand but by the way down to
them: it depends on whether one of their name can be reached before a binder of the target.

New names are neither the target nor free in the replacement, and only such names are ever taken from a
binder, so every binder is given a new name at most once.
-/

namespace UntypedLambda

namespace Term

variable {t child u : Term} {target name : Name} {path : Path}

/-- A binder of the name stands at the end of the path or above it, with no binder of the target's name
strictly above. -/
def ExposedAt (t : Term) (target : Name) (path : Path) (name : Name) : Prop :=
  ∃ above, above <+: path ∧ t.binderAt above = some name ∧
    ∀ outer, outer <+: above → outer ≠ above → t.binderAt outer ≠ some target

theorem exposedAt_of_root (h : t.binderAt [] = some name) (target : Name) (path : Path) :
    t.ExposedAt target path name := by
  refine ⟨[], List.nil_prefix, h, ?_⟩
  intro outer houter hne
  exact absurd (List.prefix_nil.1 houter) hne

theorem exposedAt_cons_iff {edge : Edge} (h : ∀ rest, t.binderAt (edge :: rest) = child.binderAt rest) :
    t.ExposedAt target (edge :: path) name ↔ t.binderAt [] = some name ∨
      (t.binderAt [] ≠ some target ∧ child.ExposedAt target path name) := by
  constructor
  · rintro ⟨above, habove, hname, houter⟩
    cases above with
    | nil => exact .inl hname
    | cons edge' above =>
      obtain ⟨rfl, hrest⟩ := List.cons_prefix_cons.1 habove
      refine .inr ⟨houter [] List.nil_prefix (List.cons_ne_nil _ _).symm, above, hrest, ?_, ?_⟩
      · rw [← h]
        exact hname
      · intro outer hprefix hne
        rw [← h]
        apply houter (edge' :: outer) (List.cons_prefix_cons.2 ⟨rfl, hprefix⟩)
        exact fun heq => hne (List.cons.inj heq).2
  · rintro (hname | ⟨hroot, above, habove, hname, houter⟩)
    · exact exposedAt_of_root hname target _
    · refine ⟨edge :: above, List.cons_prefix_cons.2 ⟨rfl, habove⟩, ?_, ?_⟩
      · rw [h]
        exact hname
      · intro outer hprefix hne
        cases outer with
        | nil => exact hroot
        | cons edge' outer =>
          obtain ⟨rfl, hrest⟩ := List.cons_prefix_cons.1 hprefix
          rw [h]
          apply houter outer hrest
          exact fun heq => hne (congrArg _ heq)

theorem exposedAt_congr (hname : ∀ q, t.binderAt q = some name ↔ u.binderAt q = some name)
    (htarget : ∀ q, t.binderAt q = some target ↔ u.binderAt q = some target) :
    t.ExposedAt target path name ↔ u.ExposedAt target path name := by
  simp only [ExposedAt, hname, ne_eq, htarget]

theorem not_exposedAt_of_root (h : t.binderAt [] = some target) (hne : name ≠ target) :
    ¬ t.ExposedAt target path name := by
  rintro ⟨above, _, hname, houter⟩
  cases above with
  | nil =>
    rw [h] at hname
    exact hne (Option.some.inj hname).symm
  | cons edge above => exact houter [] List.nil_prefix (List.cons_ne_nil _ _).symm h

end Term

namespace Substitution

open Term

variable {σ : Substitution} {t r body : Term} {path : Path} {binder name name' : Name}

def Renames (σ : Substitution) (t : Term) (path : Path) (name : Name) : Prop :=
  match σ.shadowing with
  | .stop => name ∈ σ.captives ∧ name ≠ σ.target ∧ t.ExposedAt σ.target path name
  | .rename => name ∈ σ.captives ∨ name = σ.target

/-- The abstraction that is entered in place of a given one, if any is. -/
def entered (σ : Substitution) (binder : Name) (body : Term) : Option (Name × Term) :=
  if σ.stopsAt binder then none
  else if σ.mustRename binder then (σ.refresh binder body).toOption
  else some (binder, body)

def given (before after : Option Name) : List Name :=
  if after = before then [] else after.toList

/-- The names that the binder at the end of a path is given one after another: by the renaming of
each binder above it, and by its own. -/
def namesGiven (σ : Substitution) : Term → Path → List Name
  | .lam binder body, [] =>
    match σ.entered binder body with
    | some (fresh, _) => given (some binder) (some fresh)
    | none => []
  | .lam binder body, .body :: path =>
    match σ.entered binder body with
    | some (_, renamed) =>
      given (body.binderAt path) (renamed.binderAt path) ++ σ.namesGiven renamed path
    | none => []
  | .app func _, .func :: path => σ.namesGiven func path
  | .app _ arg, .arg :: path => σ.namesGiven arg path
  | _, _ => []

/-- A name is kept if it is not to be exchanged, and otherwise exchanged once, for a marked variant
that is neither the target nor free in the replacement. -/
inductive Settled (σ : Substitution) (renames : Prop) (name : Name) : Name → List Name → Prop
  | kept (h : ¬ renames) : Settled σ renames name name []
  | exchanged (h : renames) {marks : Int} (hmarks : 0 < marks)
      (hfresh : marked name marks ∉ σ.captives ++ [σ.target]) :
      Settled σ renames name (marked name marks) [marked name marks]

def SettledAt (σ : Substitution) (t r : Term) (path : Path) (name : Name) : Prop :=
  ∃ name', r.binderAt path = some name' ∧
    σ.Settled (σ.Renames t path name) name name' (σ.namesGiven t path)

theorem Settled.eq_of_not {renames : Prop} {names : List Name}
    (h : σ.Settled renames name name' names) (hnot : ¬ renames) : name' = name ∧ names = [] := by
  cases h with
  | kept => exact ⟨rfl, rfl⟩
  | exchanged hrenames => exact absurd hrenames hnot

theorem Settled.ne_iff {renames : Prop} {names : List Name}
    (h : σ.Settled renames name name' names) :
    (name' ≠ name ↔ renames) ∧
    (name' ≠ name → (∃ marks, 0 < marks ∧ name' = marked name marks) ∧
      name' ∉ σ.captives ∧ name' ≠ σ.target) ∧
    names = if name' = name then [] else [name'] := by
  cases h with
  | kept hnot => simp [hnot]
  | @exchanged hrenames marks hmarks hfresh =>
    have hne := marked_ne hmarks name
    rw [List.mem_append, List.mem_singleton, not_or] at hfresh
    exact ⟨iff_of_true hne hrenames, fun _ => ⟨⟨marks, hmarks, rfl⟩, hfresh⟩, (if_neg hne).symm⟩

theorem given_self (before : Option Name) : given before before = [] :=
  if_pos rfl

theorem given_marked {marks : Int} (hmarks : 0 < marks) (name : Name) :
    given (some name) (some (marked name marks)) = [marked name marks] :=
  if_neg fun heq => marked_ne hmarks name (Option.some.inj heq)

/-! ### One abstraction -/

theorem mustRename_iff : σ.mustRename name = true ↔ name ∈ σ.captives ++ [σ.target] := by
  rw [mustRename_eq_true_iff, List.mem_append, List.mem_singleton, or_comm]

theorem not_renames_of_notMem (h : name ∉ σ.captives ++ [σ.target]) (t : Term) (path : Path) :
    ¬ σ.Renames t path name := by
  rw [List.mem_append, List.mem_singleton, not_or] at h
  rw [Renames]
  split
  · exact fun hrenames => h.1 hrenames.1
  · exact fun hrenames => hrenames.elim h.1 h.2

theorem not_renames_of_stopsAt (hstop : σ.stopsAt binder = true) (body : Term) (path : Path) :
    ¬ σ.Renames (.lam binder body) path name := by
  rw [stopsAt_eq_true_iff] at hstop
  rw [Renames, hstop.2]
  rintro ⟨_, hne, hexposed⟩
  have hroot : (lam binder body).binderAt [] = some σ.target := congrArg some hstop.1
  exact not_exposedAt_of_root hroot hne hexposed

theorem ne_target_of_not_stopsAt (hstop : ¬ σ.stopsAt binder = true) (h : σ.shadowing = .stop) :
    binder ≠ σ.target := by
  intro heq
  exact hstop (stopsAt_eq_true_iff.2 ⟨heq, h⟩)

/-- A binder that is reached and has to be renamed takes those of its name below along. -/
theorem renames_of_root (hstop : ¬ σ.stopsAt binder = true) (hrename : σ.mustRename binder = true)
    (body : Term) (path : Path) : σ.Renames (.lam binder body) path binder := by
  rw [mustRename_iff, List.mem_append, List.mem_singleton] at hrename
  rw [Renames]
  split
  · rename_i hshadowing
    have htarget := ne_target_of_not_stopsAt hstop hshadowing
    exact ⟨hrename.resolve_right htarget, htarget, exposedAt_of_root rfl σ.target path⟩
  · exact hrename

theorem renames_cons_iff {child : Term} {edge : Edge}
    (hchild : ∀ rest, t.binderAt (edge :: rest) = child.binderAt rest)
    (hroot : t.binderAt [] ≠ some name)
    (htarget : σ.shadowing = .stop → t.binderAt [] ≠ some σ.target) :
    σ.Renames t (edge :: path) name ↔ σ.Renames child path name := by
  rw [Renames, Renames]
  split
  · rename_i hshadowing
    rw [exposedAt_cons_iff hchild]
    simp [hroot, htarget hshadowing]
  · exact Iff.rfl

theorem renames_body_iff (hstop : ¬ σ.stopsAt binder = true) (hne : name ≠ binder) :
    σ.Renames (.lam binder body) (.body :: path) name ↔ σ.Renames body path name := by
  apply renames_cons_iff (binderAt_lam_body binder body)
  · exact fun heq => hne (Option.some.inj heq).symm
  · exact fun hshadowing heq => ne_target_of_not_stopsAt hstop hshadowing (Option.some.inj heq)

/-- Renaming a binder does not change what is to become of the others. -/
theorem renames_refresh_iff {fresh : Name} {renamed : Term} (hstop : ¬ σ.stopsAt binder = true)
    (hrefresh : σ.refresh binder body = .ok (fresh, renamed)) (hne : name ≠ binder) :
    σ.Renames renamed path name ↔ σ.Renames body path name := by
  rw [Renames, Renames]
  split
  · rename_i hshadowing
    have htarget := ne_target_of_not_stopsAt hstop hshadowing
    apply and_congr_right
    intro hcaptive
    apply and_congr_right
    intro _
    apply exposedAt_congr
    · intro q
      have hretired := retired_binderAt_of_refresh hrefresh (.body :: q)
      exact hretired.eq_some_iff (List.mem_append_left _ hcaptive) hne
    · intro q
      have hretired := retired_binderAt_of_refresh hrefresh (.body :: q)
      exact hretired.eq_some_iff (List.mem_append_right _ List.mem_cons_self) htarget.symm
  · exact Iff.rfl

theorem entered_of_stopsAt (hstop : σ.stopsAt binder = true) (body : Term) :
    σ.entered binder body = none := by
  rw [entered, if_pos hstop]

theorem entered_of_refresh {fresh : Name} {renamed : Term} (hstop : ¬ σ.stopsAt binder = true)
    (hrename : σ.mustRename binder = true) (h : σ.refresh binder body = .ok (fresh, renamed)) :
    σ.entered binder body = some (fresh, renamed) := by
  rw [entered, if_neg hstop, if_pos hrename, h]
  rfl

theorem entered_of_not_mustRename (hstop : ¬ σ.stopsAt binder = true)
    (hrename : ¬ σ.mustRename binder = true) (body : Term) :
    σ.entered binder body = some (binder, body) := by
  rw [entered, if_neg hstop, if_neg hrename]

/-! ### What becomes of a binder, node by node -/

theorem settledAt_of_stopsAt (hstop : σ.stopsAt binder = true)
    (hname : (lam binder body).binderAt path = some name) :
    σ.SettledAt (.lam binder body) (.lam binder body) path name := by
  have hgiven : σ.namesGiven (.lam binder body) path = [] := by
    rcases binderAt_lam_eq_some_iff.1 hname with ⟨rfl, _⟩ | ⟨rest, rfl, _⟩ <;>
      rw [namesGiven, entered_of_stopsAt hstop]
  refine ⟨name, hname, ?_⟩
  rw [hgiven]
  exact .kept (not_renames_of_stopsAt hstop body path)

variable {fresh : Name} {renamed : Term}

theorem settledAt_root_of_refresh (hstop : ¬ σ.stopsAt binder = true)
    (hrename : σ.mustRename binder = true)
    (hrefresh : σ.refresh binder body = .ok (fresh, renamed)) (r : Term) :
    σ.SettledAt (.lam binder body) (.lam fresh r) [] binder := by
  rcases retired_binderAt_of_refresh hrefresh [] with ⟨hne, _⟩ | ⟨_, marks, hmarks, hfresh, hnot⟩
  · exact absurd rfl hne
  · cases hfresh
    refine ⟨_, rfl, ?_⟩
    rw [namesGiven, entered_of_refresh hstop hrename hrefresh]
    simp only [given_marked hmarks]
    exact .exchanged (renames_of_root hstop hrename body []) hmarks hnot

/-- Below a binder that was renamed, the binders of its name have their new names already, and for
the others nothing has changed. -/
theorem settledAt_body_of_refresh (hstop : ¬ σ.stopsAt binder = true)
    (hrename : σ.mustRename binder = true)
    (hrefresh : σ.refresh binder body = .ok (fresh, renamed))
    (hname : body.binderAt path = some name)
    (hrest : ∀ {n}, renamed.binderAt path = some n → σ.SettledAt renamed r path n) :
    σ.SettledAt (.lam binder body) (.lam fresh r) (.body :: path) name := by
  have hretired : Retired binder (σ.captives ++ [σ.target]) 0 (body.binderAt path)
      (renamed.binderAt path) := retired_binderAt_of_refresh hrefresh (.body :: path)
  rw [SettledAt, namesGiven, entered_of_refresh hstop hrename hrefresh]
  simp only
  rw [hname] at hretired ⊢
  rcases hretired with ⟨hne, hsame⟩ | ⟨hbinder, marks, hmarks, hfresh, hnot⟩
  · have hother : name ≠ binder := fun heq => hne (congrArg some heq)
    obtain ⟨name', hname', hsettled⟩ := hrest hsame
    refine ⟨name', hname', ?_⟩
    rw [hsame, given_self, List.nil_append, renames_body_iff hstop hother,
      ← renames_refresh_iff hstop hrefresh hother]
    exact hsettled
  · cases hbinder
    obtain ⟨name', hname', hsettled⟩ := hrest hfresh
    obtain ⟨rfl, hnames⟩ := hsettled.eq_of_not (not_renames_of_notMem hnot renamed path)
    refine ⟨_, hname', ?_⟩
    rw [hfresh, hnames, given_marked hmarks, List.append_nil]
    exact .exchanged (renames_of_root hstop hrename body _) hmarks hnot

theorem settledAt_root_of_not_mustRename (hstop : ¬ σ.stopsAt binder = true)
    (hrename : ¬ σ.mustRename binder = true) (body r : Term) :
    σ.SettledAt (.lam binder body) (.lam binder r) [] binder := by
  refine ⟨binder, rfl, ?_⟩
  rw [namesGiven, entered_of_not_mustRename hstop hrename]
  simp only [given_self]
  exact .kept (not_renames_of_notMem (mt mustRename_iff.2 hrename) _ _)

theorem settledAt_body_of_not_mustRename (hstop : ¬ σ.stopsAt binder = true)
    (hrename : ¬ σ.mustRename binder = true) (h : σ.SettledAt body r path name) :
    σ.SettledAt (.lam binder body) (.lam binder r) (.body :: path) name := by
  have hnot := not_renames_of_notMem (mt mustRename_iff.2 hrename)
  have hiff : σ.Renames (.lam binder body) (.body :: path) name ↔ σ.Renames body path name := by
    by_cases hother : name = binder
    · rw [hother]
      exact iff_of_false (hnot _ _) (hnot _ _)
    · exact renames_body_iff hstop hother
  rw [SettledAt, namesGiven, entered_of_not_mustRename hstop hrename, hiff]
  simp only [given_self, List.nil_append]
  exact h

theorem SettledAt.applied {func func' : Term} (h : σ.SettledAt func func' path name)
    (arg arg' : Term) : σ.SettledAt (.app func arg) (.app func' arg') (.func :: path) name := by
  rw [SettledAt, renames_cons_iff (binderAt_app_func func arg) nofun (fun _ => nofun), namesGiven]
  exact h

theorem SettledAt.operand {arg arg' : Term} (h : σ.SettledAt arg arg' path name)
    (func func' : Term) : σ.SettledAt (.app func arg) (.app func' arg') (.arg :: path) name := by
  rw [SettledAt, renames_cons_iff (binderAt_app_arg func arg) nofun (fun _ => nofun), namesGiven]
  exact h

theorem settledAt_of_byRules (h : (σ.byRules t).outcome = .ok r)
    (hname : t.binderAt path = some name) : σ.SettledAt t r path name := by
  fun_induction byRules σ t generalizing path name r with
  | case1 n =>
    rw [binderAt_var] at hname
    cases hname
  | case2 binder body hstop =>
    cases h
    exact settledAt_of_stopsAt hstop hname
  | case3 binder body hstop hrename fresh renamed hrefresh ih =>
    rw [Logged.outcome_bind_of_ok rfl, Logged.outcome_bind] at h
    obtain ⟨r', hr', h⟩ := bind_eq_ok_iff.1 h
    cases h
    rcases binderAt_lam_eq_some_iff.1 hname with ⟨rfl, rfl⟩ | ⟨rest, rfl, hbody⟩
    · exact settledAt_root_of_refresh hstop hrename hrefresh r'
    · exact settledAt_body_of_refresh hstop hrename hrefresh hbody (ih hr')
  | case4 binder body hstop hrename fault hrefresh => cases h
  | case5 binder body hstop hrename ih =>
    rw [Logged.outcome_bind] at h
    obtain ⟨r', hr', h⟩ := bind_eq_ok_iff.1 h
    cases h
    rcases binderAt_lam_eq_some_iff.1 hname with ⟨rfl, rfl⟩ | ⟨rest, rfl, hbody⟩
    · exact settledAt_root_of_not_mustRename hstop hrename body r'
    · exact settledAt_body_of_not_mustRename hstop hrename (ih hr' hbody)
  | case6 func arg ihf iha =>
    rw [Logged.outcome_bind] at h
    obtain ⟨func', hfunc, h⟩ := bind_eq_ok_iff.1 h
    rw [Logged.outcome_bind] at h
    obtain ⟨arg', harg, h⟩ := bind_eq_ok_iff.1 h
    cases h
    rcases binderAt_app_eq_some_iff.1 hname with ⟨rest, rfl, hrest⟩ | ⟨rest, rfl, hrest⟩
    · exact (ihf hfunc hrest).applied arg arg'
    · exact (iha harg hrest).operand func func'
  | case7 leaf => cases h

theorem eq_of_ofReplacement {target : Name} {replacement : Term} {shadowing : Shadowing}
    (h : ofReplacement target replacement shadowing = .ok σ) :
    replacement.freeVars = .ok σ.captives ∧ σ.shadowing = shadowing := by
  obtain ⟨names, hnames, h⟩ := bind_eq_ok_iff.1 h
  cases h
  exact ⟨hnames, rfl⟩

end Substitution

open Substitution

namespace Term

/-- Which binders come out with another name, by the treatment of shadowing; the new name is fresh
and given once, and variables keep their binders. -/
theorem subst_renames_binders {t replacement : Term} (ht : t.WellFormed)
    (hreplacement : replacement.WellFormed) (target : Name) (shadowing : Shadowing) :
    ∃ σ r, ofReplacement target replacement shadowing = .ok σ ∧
      replacement.freeVars = .ok σ.captives ∧
      (t.subst target replacement shadowing).outcome = .ok r ∧
      (∀ path name, t.binderAt path = some name → ∃ name', r.binderAt path = some name' ∧
        (name' ≠ name ↔ match shadowing with
          | .stop => name ∈ σ.captives ∧ name ≠ target ∧ t.ExposedAt target path name
          | .rename => name ∈ σ.captives ∨ name = target) ∧
        (name' ≠ name → (∃ marks, 0 < marks ∧ name' = marked name marks) ∧
          name' ∉ σ.captives ∧ name' ≠ target) ∧
        σ.namesGiven t path = if name' = name then [] else [name']) ∧
      (∀ path name, t.subterm path = .ok (.var name) →
        t.FreeAt path name ∨ ∃ owner, t.BoundAt path owner) ∧
      (∀ path name, t.FreeAt path name → name ≠ target → r.FreeAt path name) ∧
      ∀ path owner, t.BoundAt path owner → r.BoundAt path owner ∧
        ∃ name', r.binderAt owner = some name' ∧ r.subterm path = .ok (.var name') := by
  obtain ⟨σ, hσ, hready, rfl, rfl⟩ := exists_ofReplacement target hreplacement shadowing
  obtain ⟨hcaptives, rfl⟩ := eq_of_ofReplacement hσ
  obtain ⟨r, hr, _, hyields⟩ := hready.exists_byRules ht
  have hgrafted := hyields.grafted
  refine ⟨σ, r, hσ, hcaptives, ?_, ?_, fun path name => freeAt_or_boundAt, ?_, ?_⟩
  · rw [subst, hσ, Logged.outcome_bind_of_ok rfl, State.run_start, hr]
  · intro path name hname
    obtain ⟨name', hname', hsettled⟩ := settledAt_of_byRules hr hname
    exact ⟨name', hname', hsettled.ne_iff⟩
  · intro path name hfree hne
    obtain ⟨name', hsame, hfree'⟩ := hgrafted.exists_freeAt hfree fun heq => absurd heq hne
    obtain rfl : name = name' := hsame
    exact hfree'
  · intro path owner hbound
    have hbound' := hgrafted.boundAt hbound
    obtain ⟨name', hvar, howner⟩ := hbound'.exists_name
    exact ⟨hbound', name', howner, hvar⟩

/-- A binder where the substitution does not come is renamed with the one of its name further up. -/
theorem subst_renames_binders_below_target :
    ∃ r name', ((lam "y" (app (var "x") (lam "x" (lam "y" (app (var "y") (var "x")))))).subst "x"
        (var "y") .stop).outcome = .ok r ∧
      r.binderAt [.body, .arg, .body] = some name' ∧ name' ≠ "y" := by
  have ht : (lam "y" (app (var "x") (lam "x" (lam "y" (app (var "y") (var "x")))))).WellFormed := by
    decide
  have hreplacement : (var "y").WellFormed := by decide
  obtain ⟨σ, r, _, hfree, hr, hbinders, _⟩ := subst_renames_binders ht hreplacement "x" .stop
  obtain ⟨name', hname', hiff, _⟩ := hbinders [.body, .arg, .body] "y" rfl
  have hcaptive : "y" ∈ σ.captives := by
    have hnames : (var "y").freeVars = .ok ["y"] := by cbv
    rw [Except.ok.inj (hfree.symm.trans hnames)]
    exact List.mem_cons_self
  exact ⟨r, name', hr, hname', hiff.2 ⟨hcaptive, by decide, exposedAt_of_root rfl "x" _⟩⟩

/-- The free names of a result are those of the term without the target, and those of the
replacement if the target was free. -/
theorem freeVars_subst {t replacement : Term} (ht : t.WellFormed)
    (hreplacement : replacement.WellFormed) (target : Name) (shadowing : Shadowing) :
    ∃ r before added after, (t.subst target replacement shadowing).outcome = .ok r ∧
      t.freeVars = .ok before ∧ replacement.freeVars = .ok added ∧ r.freeVars = .ok after ∧
      (target ∈ before → after.toFinset = before.toFinset \ {target} ∪ added.toFinset) ∧
      (target ∉ before → after.toFinset = before.toFinset) := by
  obtain ⟨r, hr, hwf, hfree, _⟩ := exists_subst ht hreplacement target shadowing
  obtain ⟨before, hbefore, hmemBefore⟩ := freeVars_of_plain ht.foreignLeaves_eq_nil
  obtain ⟨added, hadded, hmemAdded⟩ := freeVars_of_plain hreplacement.foreignLeaves_eq_nil
  obtain ⟨after, hafter, hmemAfter⟩ := freeVars_of_plain hwf.foreignLeaves_eq_nil
  refine ⟨r, before, added, after, hr, hbefore, hadded, hafter, ?_, ?_⟩
  · intro htarget
    rw [hmemBefore] at htarget
    ext n
    rw [Finset.mem_union, Finset.mem_sdiff, Finset.mem_singleton, List.mem_toFinset,
      List.mem_toFinset, List.mem_toFinset, hmemBefore, hmemAdded, hmemAfter, hfree]
    simp [htarget]
  · intro htarget
    rw [hmemBefore] at htarget
    ext n
    have hne : n ∈ t.free → n ≠ target := fun hn heq => htarget (heq ▸ hn)
    rw [List.mem_toFinset, List.mem_toFinset, hmemBefore, hmemAfter, hfree]
    simpa [htarget] using hne

/-- The binder would capture the name that is added, and the first name that is tried for it is free
already. -/
theorem freeVars_subst_captured_name :
    ∃ r after, ((lam "y" (app (var "x") (var "y'"))).subst "x" (var "y") .stop).outcome = .ok r ∧
      r.freeVars = .ok after ∧ after.toFinset = {"y'", "y"} := by
  have ht : (lam "y" (app (var "x") (var "y'"))).WellFormed := by decide
  have hreplacement : (var "y").WellFormed := by decide
  obtain ⟨r, before, added, after, hr, hbefore, hadded, hafter, hfree, _⟩ :=
    freeVars_subst ht hreplacement "x" .stop
  have hnames : (lam "y" (app (var "x") (var "y'"))).freeVars = .ok ["y'", "x"] := by cbv
  have hreplacementNames : (var "y").freeVars = .ok ["y"] := by cbv
  obtain rfl := Except.ok.inj (hnames.symm.trans hbefore)
  obtain rfl := Except.ok.inj (hreplacementNames.symm.trans hadded)
  exact ⟨r, after, hr, hafter, (hfree (by decide)).trans (by decide)⟩

end Term

end UntypedLambda

import Mathlib.Data.List.Forall2
import UntypedLambda.Proofs.Substitution.Refusal
/-!
# The renamings that a substitution tells

A substitution tells of every binder that it renames where it meets it, in preorder. A binder that is
renamed along with one of its name further up is not told of: when the substitution comes to it, it has
its new name, which is none that has to be renamed. So a renaming is told for each binder that is come to
and has to be renamed, if there is none of its name above it; and since no binder is given a name twice,
the name that is told is the one that stands in the result.
-/

namespace UntypedLambda

namespace Term

variable {t t' : Term} {name n current : Name} {avoid : List Name}

theorem Retires.mem_bindersAlong_iff {count count' : Int}
    (h : Retires name avoid t current count t' count') (hn : n ∈ avoid) (hne : n ≠ name)
    (path : Path) : n ∈ t'.bindersAlong path ↔ n ∈ t.bindersAlong path := by
  induction h generalizing path with
  | current => simp [bindersAlong]
  | other => exact Iff.rfl
  | @minted _ _ _ count _ _ ih =>
    have hfresh : n ≠ (mint name count avoid).1 := fun heq => mint_notMem name count avoid (heq ▸ hn)
    cases path with
    | nil => simp
    | cons edge path =>
      cases edge with
      | body => simp [bindersAlong, hfresh, hne, ih]
      | _ => exact Iff.rfl
  | passed _ _ ih =>
    cases path with
    | nil => simp
    | cons edge path =>
      cases edge with
      | body => simp [bindersAlong, ih]
      | _ => exact Iff.rfl
  | app _ _ ihf iha =>
    cases path with
    | nil => simp
    | cons edge path =>
      cases edge with
      | func => exact ihf path
      | arg => exact iha path
      | body => exact Iff.rfl

theorem mem_bindersAlong_refresh_iff {binder fresh : Name} {body renamed : Term}
    (h : refresh binder body avoid = .ok (fresh, renamed)) (hn : n ∈ avoid) (hne : n ≠ binder)
    (path : Path) : n ∈ renamed.bindersAlong path ↔ n ∈ body.bindersAlong path := by
  obtain ⟨names, count, _, hfresh, hretires⟩ := retires_of_refresh h
  have hn' : n ∈ avoid ++ names ++ [binder] := List.mem_append_left _ (List.mem_append_left _ hn)
  have hnew : n ≠ fresh := fun heq => hfresh (heq ▸ hn')
  have hwhole := (hretires binder).mem_bindersAlong_iff hn' hne (.body :: path)
  simpa [bindersAlong, hne, hnew] using hwhole

end Term

namespace Substitution

open Term

variable {σ : Substitution} {t r func arg body : Term} {path : Path} {binder name : Name}

def TellsAt (σ : Substitution) (t : Term) (path : Path) (name : Name) : Prop :=
  t.binderAt path = some name ∧ ¬ σ.stopsAt name = true ∧ σ.mustRename name = true ∧
    σ.ComesTo t path ∧ name ∉ t.bindersAlong path

/-- An event tells the renaming at the end of a path: the name of the binder in the term, and its name in
the result. -/
def ToldAs (σ : Substitution) (t r : Term) (path : Path) (event : Event) : Prop :=
  ∃ old new, σ.TellsAt t path old ∧ r.binderAt path = some new ∧ event = .renamed old new

/-- The events tell all the renamings, in preorder and nothing else. -/
def Tells (σ : Substitution) (t r : Term) (events : List Event) : Prop :=
  ∃ paths, Path.Lists paths (fun path => ∃ name, σ.TellsAt t path name) ∧
    List.Forall₂ (σ.ToldAs t r) paths events

theorem tellsAt_iff :
    σ.TellsAt t path name ↔ t.binderAt path = some name ∧ name ∉ t.bindersAlong path ∧
      match σ.shadowing with
      | .stop => name ∈ σ.captives ∧ name ≠ σ.target ∧ σ.target ∉ t.bindersAlong path
      | .rename => name ∈ σ.captives ∨ name = σ.target := by
  rw [TellsAt, mustRename_iff, List.mem_append, List.mem_singleton]
  split
  · rename_i hshadowing
    rw [comesTo_iff_of_stop hshadowing]
    simp only [stopsAt_eq_true_iff, hshadowing, and_true]
    tauto
  · rename_i hshadowing
    have hcomes := comesTo_of_rename hshadowing t path
    simp only [stopsAt_eq_true_iff, hshadowing, hcomes, reduceCtorEq, and_false, not_false_eq_true,
      true_and]
    tauto

/-! ### The renamings that are told, node by node -/

theorem not_tellsAt_of_stopsAt (hstop : σ.stopsAt binder = true) :
    ¬ σ.TellsAt (.lam binder body) path name := by
  rintro ⟨hname, hgoes, _, hcomes, _⟩
  rcases binderAt_lam_eq_some_iff.1 hname with ⟨rfl, rfl⟩ | ⟨rest, rfl, _⟩
  · exact hgoes hstop
  · exact (comesTo_body_iff.1 hcomes).1 hstop

theorem tellsAt_lam_iff (hstop : ¬ σ.stopsAt binder = true) :
    σ.TellsAt (.lam binder body) path name ↔
      (path = [] ∧ name = binder ∧ σ.mustRename binder = true) ∨
      ∃ rest, path = .body :: rest ∧ name ≠ binder ∧ σ.TellsAt body rest name := by
  constructor
  · rintro ⟨hname, hgoes, hrename, hcomes, hnone⟩
    rcases binderAt_lam_eq_some_iff.1 hname with ⟨rfl, rfl⟩ | ⟨rest, rfl, hrest⟩
    · exact .inl ⟨rfl, rfl, hrename⟩
    · rw [bindersAlong, List.mem_cons, not_or] at hnone
      exact .inr ⟨rest, rfl, hnone.1, hrest, hgoes, hrename, (comesTo_body_iff.1 hcomes).2, hnone.2⟩
  · rintro (⟨rfl, rfl, hrename⟩ | ⟨rest, rfl, hne, hname, hgoes, hrename, hcomes, hnone⟩)
    · exact ⟨rfl, hstop, hrename, σ.comesTo_nil _, List.not_mem_nil⟩
    · refine ⟨hname, hgoes, hrename, comesTo_body_iff.2 ⟨hstop, hcomes⟩, ?_⟩
      rw [bindersAlong, List.mem_cons, not_or]
      exact ⟨hne, hnone⟩

theorem tellsAt_app_iff :
    σ.TellsAt (.app func arg) path name ↔
      (∃ rest, path = .func :: rest ∧ σ.TellsAt func rest name) ∨
      ∃ rest, path = .arg :: rest ∧ σ.TellsAt arg rest name := by
  constructor
  · rintro ⟨hname, h⟩
    rcases binderAt_app_eq_some_iff.1 hname with ⟨rest, rfl, hrest⟩ | ⟨rest, rfl, hrest⟩
    · exact .inl ⟨rest, rfl, hrest, h⟩
    · exact .inr ⟨rest, rfl, hrest, h⟩
  · rintro (⟨rest, rfl, h⟩ | ⟨rest, rfl, h⟩)
    · exact h
    · exact h

section Renamed

variable {fresh : Name} {renamed : Term}

theorem comesTo_refresh_iff (hstop : ¬ σ.stopsAt binder = true)
    (hrefresh : σ.refresh binder body = .ok (fresh, renamed)) :
    σ.ComesTo renamed path ↔ σ.ComesTo body path := by
  cases hshadowing : σ.shadowing with
  | rename =>
    exact iff_of_true (comesTo_of_rename hshadowing _ _) (comesTo_of_rename hshadowing _ _)
  | stop =>
    have htarget := (ne_target_of_not_stopsAt hstop hshadowing).symm
    have hmem : σ.target ∈ σ.captives ++ [σ.target] := List.mem_append_right _ List.mem_cons_self
    rw [comesTo_iff_of_stop hshadowing, comesTo_iff_of_stop hshadowing,
      mem_bindersAlong_refresh_iff hrefresh hmem htarget]

/-- Below a binder that was renamed the same renamings are left to tell as before, except those of its
own name. -/
theorem tellsAt_refresh_iff (hstop : ¬ σ.stopsAt binder = true)
    (hrefresh : σ.refresh binder body = .ok (fresh, renamed)) :
    σ.TellsAt renamed path name ↔ name ≠ binder ∧ σ.TellsAt body path name := by
  have hretired : Retired binder (σ.captives ++ [σ.target]) 0 (body.binderAt path)
      (renamed.binderAt path) := retired_binderAt_of_refresh hrefresh (.body :: path)
  by_cases hrename : σ.mustRename name = true
  · have hmem := mustRename_iff.1 hrename
    by_cases hne : name = binder
    · subst hne
      refine iff_of_false ?_ (fun h => h.1 rfl)
      rintro ⟨hname, _⟩
      rw [hname] at hretired
      rcases hretired with ⟨hother, hsame⟩ | ⟨_, marks, hmarks, hmarked, _⟩
      · exact hother hsame.symm
      · exact marked_ne hmarks name (Option.some.inj hmarked).symm
    · rw [TellsAt, TellsAt, hretired.eq_some_iff hmem hne, comesTo_refresh_iff hstop hrefresh,
        mem_bindersAlong_refresh_iff hrefresh hmem hne]
      exact (and_iff_right hne).symm
  · exact iff_of_false (fun h => hrename h.2.2.1) (fun h => hrename h.2.2.2.1)

/-! ### What the rules tell -/

theorem tells_nil (h : ∀ path name, ¬ σ.TellsAt t path name) (r : Term) : σ.Tells t r [] :=
  ⟨[], Path.lists_nil fun path ⟨name, hname⟩ => h path name hname, .nil⟩

theorem forall₂_toldAs_behind {child child' : Term} {edge : Edge} {paths : List Path}
    {events : List Event} (h : List.Forall₂ (σ.ToldAs child child') paths events)
    (htells : ∀ rest name, σ.TellsAt child rest name → σ.TellsAt t (edge :: rest) name)
    (hresult : ∀ rest, r.binderAt (edge :: rest) = child'.binderAt rest) :
    List.Forall₂ (σ.ToldAs t r) (paths.map (edge :: ·)) events := by
  rw [List.forall₂_map_left_iff]
  refine h.imp ?_
  rintro rest event ⟨old, new, hold, hnew, rfl⟩
  exact ⟨old, new, htells rest old hold, (hresult rest).trans hnew, rfl⟩

theorem Tells.of_refresh {r : Term} {events : List Event} (hstop : ¬ σ.stopsAt binder = true)
    (hrename : σ.mustRename binder = true)
    (hrefresh : σ.refresh binder body = .ok (fresh, renamed)) (h : σ.Tells renamed r events) :
    σ.Tells (.lam binder body) (.lam fresh r) (.renamed binder fresh :: events) := by
  obtain ⟨paths, hlists, htold⟩ := h
  have hbody : ∀ rest name, σ.TellsAt renamed rest name →
      σ.TellsAt (.lam binder body) (.body :: rest) name := by
    intro rest name hname
    exact (tellsAt_lam_iff hstop).2 (.inr ⟨rest, rfl, (tellsAt_refresh_iff hstop hrefresh).1 hname⟩)
  have hbelow := hlists.behind .body fun path => Iff.rfl
  refine ⟨[] :: paths.map (.body :: ·), hbelow.root (by simp) fun path => ?_, .cons ?_ ?_⟩
  · constructor
    · rintro ⟨name, hname⟩
      rcases (tellsAt_lam_iff hstop).1 hname with ⟨rfl, _⟩ | ⟨rest, rfl, hrest⟩
      · exact .inl rfl
      · exact .inr ⟨rest, rfl, name, (tellsAt_refresh_iff hstop hrefresh).2 hrest⟩
    · rintro (rfl | ⟨rest, rfl, name, hname⟩)
      · exact ⟨binder, (tellsAt_lam_iff hstop).2 (.inl ⟨rfl, rfl, hrename⟩)⟩
      · exact ⟨name, hbody rest name hname⟩
  · exact ⟨binder, fresh, (tellsAt_lam_iff hstop).2 (.inl ⟨rfl, rfl, hrename⟩), rfl, rfl⟩
  · exact forall₂_toldAs_behind htold hbody (binderAt_lam_body fresh r)

end Renamed

theorem Tells.of_not_mustRename {events : List Event} (hstop : ¬ σ.stopsAt binder = true)
    (hrename : ¬ σ.mustRename binder = true) (h : σ.Tells body r events) :
    σ.Tells (.lam binder body) (.lam binder r) events := by
  obtain ⟨paths, hlists, htold⟩ := h
  have hbody : ∀ path name, σ.TellsAt (.lam binder body) path name ↔
      ∃ rest, path = .body :: rest ∧ σ.TellsAt body rest name := by
    intro path name
    rw [tellsAt_lam_iff hstop]
    constructor
    · rintro (⟨_, _, hmust⟩ | ⟨rest, rfl, _, hrest⟩)
      · exact absurd hmust hrename
      · exact ⟨rest, rfl, hrest⟩
    · rintro ⟨rest, rfl, hrest⟩
      refine .inr ⟨rest, rfl, ?_, hrest⟩
      rintro rfl
      exact hrename hrest.2.2.1
  refine ⟨paths.map (.body :: ·), hlists.behind .body fun path => ?_, ?_⟩
  · simp only [hbody]
    constructor
    · rintro ⟨name, rest, rfl, hname⟩
      exact ⟨rest, rfl, name, hname⟩
    · rintro ⟨rest, rfl, name, hname⟩
      exact ⟨name, rest, rfl, hname⟩
  · refine forall₂_toldAs_behind htold ?_ (binderAt_lam_body binder r)
    exact fun rest name hname => (hbody _ _).2 ⟨rest, rfl, hname⟩

theorem Tells.app {func' arg' : Term} {events events' : List Event}
    (hfunc : σ.Tells func func' events) (harg : σ.Tells arg arg' events') :
    σ.Tells (.app func arg) (.app func' arg') (events ++ events') := by
  obtain ⟨paths, hlists, htold⟩ := hfunc
  obtain ⟨paths', hlists', htold'⟩ := harg
  refine ⟨_, hlists.sides hlists' fun path => ?_, List.rel_append ?_ ?_⟩
  · simp only [tellsAt_app_iff]
    constructor
    · rintro ⟨name, ⟨rest, rfl, hname⟩ | ⟨rest, rfl, hname⟩⟩
      · exact .inl ⟨rest, rfl, name, hname⟩
      · exact .inr ⟨rest, rfl, name, hname⟩
    · rintro (⟨rest, rfl, name, hname⟩ | ⟨rest, rfl, name, hname⟩)
      · exact ⟨name, .inl ⟨rest, rfl, hname⟩⟩
      · exact ⟨name, .inr ⟨rest, rfl, hname⟩⟩
  · refine forall₂_toldAs_behind htold ?_ (binderAt_app_func func' arg')
    exact fun rest name hname => tellsAt_app_iff.2 (.inl ⟨rest, rfl, hname⟩)
  · refine forall₂_toldAs_behind htold' ?_ (binderAt_app_arg func' arg')
    exact fun rest name hname => tellsAt_app_iff.2 (.inr ⟨rest, rfl, hname⟩)

theorem tells_byRules (h : (σ.byRules t).outcome = .ok r) : σ.Tells t r (σ.byRules t).log := by
  fun_induction byRules σ t generalizing r with
  | case1 name =>
    apply tells_nil
    rintro path n ⟨hname, _⟩
    rw [binderAt_var] at hname
    cases hname
  | case2 binder body hstop => exact tells_nil (fun path n => not_tellsAt_of_stopsAt hstop) r
  | case3 binder body hstop hrename fresh renamed hrefresh ih =>
    rw [Logged.outcome_bind_of_ok rfl, Logged.outcome_bind] at h
    obtain ⟨r', hr', h⟩ := bind_eq_ok_iff.1 h
    cases h
    rw [Logged.log_bind_of_ok rfl, Logged.log_bind_of_ok hr', Logged.log_pure, List.append_nil]
    exact (ih hr').of_refresh hstop hrename hrefresh
  | case4 binder body hstop hrename fault hrefresh => cases h
  | case5 binder body hstop hrename ih =>
    rw [Logged.outcome_bind] at h
    obtain ⟨r', hr', h⟩ := bind_eq_ok_iff.1 h
    cases h
    rw [Logged.log_bind_of_ok hr', Logged.log_pure, List.append_nil]
    exact (ih hr').of_not_mustRename hstop hrename
  | case6 func arg ihf iha =>
    rw [Logged.outcome_bind] at h
    obtain ⟨func', hfunc, h⟩ := bind_eq_ok_iff.1 h
    rw [Logged.outcome_bind] at h
    obtain ⟨arg', harg, h⟩ := bind_eq_ok_iff.1 h
    cases h
    rw [Logged.log_bind_of_ok hfunc, Logged.log_bind_of_ok harg, Logged.log_pure, List.append_nil]
    exact (ihf hfunc).app (iha harg)
  | case7 leaf => cases h

end Substitution

end UntypedLambda

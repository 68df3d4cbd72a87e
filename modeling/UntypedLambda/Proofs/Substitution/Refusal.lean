import UntypedLambda.Fault.Message
import UntypedLambda.Proofs.Substitution.Names
/-!
# What a substitution refuses

A replacement with a foreign leaf is refused before anything else happens. After that a substitution goes
through the term in preorder, down to the binders where it stops, and can fail at two kinds of node: at a
foreign leaf, and at a binder that has to be renamed while there is a foreign leaf somewhere below it. For
the second it does not matter whether the leaf would ever be reached: the names of the whole body are
collected first. Once they have been collected the body has no foreign leaf, so nothing can fail below a
binder that was renamed, and the renaming itself cannot fail.
-/

namespace UntypedLambda

namespace Substitution

open Term

variable {σ : Substitution} {t r func arg body : Term} {path : Path} {fault fault' : Fault}
  {binder n : Name}

/-- A substitution stops at none of the binders above the end of a path. -/
def ComesTo (σ : Substitution) (t : Term) (path : Path) : Prop :=
  ∀ binder ∈ t.bindersAlong path, ¬ σ.stopsAt binder = true

inductive Refuses (σ : Substitution) : Term → Fault → Prop
  | foreign (leaf : Foreign) : Refuses σ (.foreign leaf) (.stray .substitution leaf)
  | binder {binder : Name} {body : Term} {leaf : Foreign} {others : List Foreign}
      (hstop : ¬ σ.stopsAt binder = true) (hrename : σ.mustRename binder = true)
      (hleaves : body.foreignLeaves = leaf :: others) :
      Refuses σ (.lam binder body) (.stray .allNames leaf)

/-- A substitution comes to the end of a path and fails there, unless it has failed before. -/
def RefusesAt (σ : Substitution) (t : Term) (path : Path) (fault : Fault) : Prop :=
  ∃ node, t.subterm path = .ok node ∧ σ.ComesTo t path ∧ σ.Refuses node fault

def FirstRefusesAt (σ : Substitution) (t : Term) (path : Path) (fault : Fault) : Prop :=
  Path.First Path.Precedes (σ.RefusesAt t) path fault

theorem Refuses.unique {node : Term} (h : σ.Refuses node fault) (h' : σ.Refuses node fault') :
    fault = fault' := by
  cases h with
  | foreign leaf =>
    cases h'
    rfl
  | binder _ _ hleaves =>
    cases h' with
    | binder _ _ hleaves' =>
      rw [hleaves] at hleaves'
      cases hleaves'
      rfl

theorem RefusesAt.unique (h : σ.RefusesAt t path fault) (h' : σ.RefusesAt t path fault') :
    fault = fault' := by
  obtain ⟨node, hnode, _, hrefuses⟩ := h
  obtain ⟨node', hnode', _, hrefuses'⟩ := h'
  rw [hnode] at hnode'
  cases hnode'
  exact hrefuses.unique hrefuses'

/-! ### Where a substitution fails, node by node -/

theorem comesTo_nil (σ : Substitution) (t : Term) : σ.ComesTo t [] := by
  simp [ComesTo]

theorem comesTo_body_iff :
    σ.ComesTo (.lam binder body) (.body :: path) ↔
      ¬ σ.stopsAt binder = true ∧ σ.ComesTo body path :=
  List.forall_mem_cons

theorem not_refusesAt_var : ¬ σ.RefusesAt (.var n) path fault := by
  rintro ⟨node, hnode, _, hrefuses⟩
  obtain ⟨_, rfl⟩ := subterm_var_eq_ok_iff.1 hnode
  cases hrefuses

theorem refusesAt_lam_iff :
    σ.RefusesAt (.lam binder body) path fault ↔
      (path = [] ∧ σ.Refuses (.lam binder body) fault) ∨
      ∃ rest, path = .body :: rest ∧ ¬ σ.stopsAt binder = true ∧ σ.RefusesAt body rest fault := by
  constructor
  · rintro ⟨node, hnode, hcomes, hrefuses⟩
    rcases subterm_lam_eq_ok_iff.1 hnode with ⟨rfl, rfl⟩ | ⟨rest, rfl, hrest⟩
    · exact .inl ⟨rfl, hrefuses⟩
    · obtain ⟨hstop, hcomes⟩ := comesTo_body_iff.1 hcomes
      exact .inr ⟨rest, rfl, hstop, node, hrest, hcomes, hrefuses⟩
  · rintro (⟨rfl, hrefuses⟩ | ⟨rest, rfl, hstop, node, hnode, hcomes, hrefuses⟩)
    · exact ⟨_, rfl, σ.comesTo_nil _, hrefuses⟩
    · exact ⟨node, hnode, comesTo_body_iff.2 ⟨hstop, hcomes⟩, hrefuses⟩

theorem refusesAt_app_iff :
    σ.RefusesAt (.app func arg) path fault ↔
      (∃ rest, path = .func :: rest ∧ σ.RefusesAt func rest fault) ∨
      ∃ rest, path = .arg :: rest ∧ σ.RefusesAt arg rest fault := by
  constructor
  · rintro ⟨node, hnode, hcomes, hrefuses⟩
    rcases subterm_app_eq_ok_iff.1 hnode with ⟨rfl, rfl⟩ | ⟨rest, rfl, hrest⟩ | ⟨rest, rfl, hrest⟩
    · cases hrefuses
    · exact .inl ⟨rest, rfl, node, hrest, hcomes, hrefuses⟩
    · exact .inr ⟨rest, rfl, node, hrest, hcomes, hrefuses⟩
  · rintro (⟨rest, rfl, node, hnode, hcomes, hrefuses⟩ | ⟨rest, rfl, node, hnode, hcomes, hrefuses⟩)
    · exact ⟨node, hnode, hcomes, hrefuses⟩
    · exact ⟨node, hnode, hcomes, hrefuses⟩

theorem not_refusesAt_of_plain (h : t.foreignLeaves = []) : ¬ σ.RefusesAt t path fault := by
  rintro ⟨node, hnode, _, hrefuses⟩
  have hnone := foreignLeaves_eq_nil_iff.1 h
  cases hrefuses with
  | foreign leaf => exact hnone path leaf hnode
  | @binder binder body leaf others _ _ hleaves =>
    have hmem : leaf ∈ body.foreignLeaves := hleaves ▸ List.mem_cons_self
    obtain ⟨below, hbelow⟩ := mem_foreignLeaves_iff.1 hmem
    apply hnone (path ++ .body :: below) leaf
    rw [subterm_append, hnode]
    exact hbelow

theorem refusesAt_lam_iff_of_not_mustRename (hstop : ¬ σ.stopsAt binder = true)
    (hrename : ¬ σ.mustRename binder = true) :
    σ.RefusesAt (.lam binder body) path fault ↔
      ∃ rest, path = .body :: rest ∧ σ.RefusesAt body rest fault := by
  rw [refusesAt_lam_iff]
  constructor
  · rintro (⟨_, hrefuses⟩ | ⟨rest, rfl, _, hrest⟩)
    · cases hrefuses with
      | binder _ hmust => exact absurd hmust hrename
    · exact ⟨rest, rfl, hrest⟩
  · rintro ⟨rest, rfl, hrest⟩
    exact .inr ⟨rest, rfl, hstop, hrest⟩

theorem firstRefusesAt_nil (h : σ.Refuses t fault) : σ.FirstRefusesAt t [] fault :=
  Path.first_nil ⟨t, rfl, σ.comesTo_nil t, h⟩

/-! ### The rules against these positions -/

theorem not_refusesAt_of_byRules (h : (σ.byRules t).outcome = .ok r) (path : Path) (fault : Fault) :
    ¬ σ.RefusesAt t path fault := by
  fun_induction byRules σ t generalizing path r with
  | case1 name => exact not_refusesAt_var
  | case2 binder body hstop =>
    rw [refusesAt_lam_iff]
    rintro (⟨_, hrefuses⟩ | ⟨_, _, hgoes, _⟩)
    · cases hrefuses with
      | binder hgoes => exact hgoes hstop
    · exact hgoes hstop
  | case3 binder body hstop hrename fresh renamed hrefresh ih =>
    have hplain : (lam binder body).foreignLeaves = [] := (plain_of_refresh hrefresh).1
    exact not_refusesAt_of_plain hplain
  | case4 binder body hstop hrename fault' hrefresh => cases h
  | case5 binder body hstop hrename ih =>
    rw [Logged.outcome_bind] at h
    obtain ⟨r', hr', _⟩ := bind_eq_ok_iff.1 h
    rw [refusesAt_lam_iff_of_not_mustRename hstop hrename]
    rintro ⟨rest, _, hrest⟩
    exact ih hr' rest hrest
  | case6 func arg ihf iha =>
    rw [Logged.outcome_bind] at h
    obtain ⟨func', hfunc, h⟩ := bind_eq_ok_iff.1 h
    rw [Logged.outcome_bind] at h
    obtain ⟨arg', harg, _⟩ := bind_eq_ok_iff.1 h
    rw [refusesAt_app_iff]
    rintro (⟨rest, _, hrest⟩ | ⟨rest, _, hrest⟩)
    · exact ihf hfunc rest hrest
    · exact iha harg rest hrest
  | case7 leaf => cases h

theorem exists_firstRefusesAt (h : (σ.byRules t).outcome = .error fault) :
    ∃ path, σ.FirstRefusesAt t path fault := by
  fun_induction byRules σ t with
  | case1 name => cases h
  | case2 binder body hstop => cases h
  | case3 binder body hstop hrename fresh renamed hrefresh ih =>
    -- The renamed body has no foreign leaf, so the substitution does not fail in it.
    rw [Logged.outcome_bind_of_ok rfl, Logged.outcome_bind] at h
    rcases bind_eq_error_iff.1 h with hrenamed | ⟨_, _, h⟩
    · obtain ⟨path, hpath, _⟩ := ih hrenamed
      exact absurd hpath (not_refusesAt_of_plain (plain_of_refresh hrefresh).2)
    · cases h
  | case4 binder body hstop hrename fault' hrefresh =>
    cases h
    obtain ⟨leaf, others, hleaves, rfl⟩ := foreign_of_refresh_eq_error hrefresh
    exact ⟨[], firstRefusesAt_nil (.binder hstop hrename hleaves)⟩
  | case5 binder body hstop hrename ih =>
    rw [Logged.outcome_bind] at h
    rcases bind_eq_error_iff.1 h with hbody | ⟨_, _, h⟩
    · obtain ⟨path, hpath⟩ := ih hbody
      exact ⟨.body :: path, hpath.behind .body (refusesAt_lam_iff_of_not_mustRename hstop hrename)⟩
    · cases h
  | case6 func arg ihf iha =>
    rw [Logged.outcome_bind] at h
    rcases bind_eq_error_iff.1 h with hfunc | ⟨func', hfunc, h⟩
    · obtain ⟨path, hpath⟩ := ihf hfunc
      exact ⟨.func :: path, hpath.ofFunc refusesAt_app_iff⟩
    rw [Logged.outcome_bind] at h
    rcases bind_eq_error_iff.1 h with harg | ⟨_, _, h⟩
    · obtain ⟨path, hpath⟩ := iha harg
      exact ⟨.arg :: path, hpath.ofArg refusesAt_app_iff (not_refusesAt_of_byRules hfunc)⟩
    · cases h
  | case7 leaf =>
    cases h
    exact ⟨[], firstRefusesAt_nil (.foreign leaf)⟩

theorem byRules_eq_error_iff :
    (σ.byRules t).outcome = .error fault ↔ ∃ path, σ.FirstRefusesAt t path fault := by
  refine ⟨exists_firstRefusesAt, ?_⟩
  rintro ⟨path, hpath⟩
  cases houtcome : (σ.byRules t).outcome with
  | ok r => exact absurd hpath.1 (not_refusesAt_of_byRules houtcome path fault)
  | error fault' =>
    obtain ⟨path', hpath'⟩ := exists_firstRefusesAt houtcome
    rw [Path.First.unique hpath hpath' RefusesAt.unique]

theorem exists_byRules_eq_error_iff :
    (∃ fault, (σ.byRules t).outcome = .error fault) ↔ ∃ path fault, σ.RefusesAt t path fault := by
  constructor
  · rintro ⟨fault, hfault⟩
    obtain ⟨path, hpath, _⟩ := exists_firstRefusesAt hfault
    exact ⟨path, fault, hpath⟩
  · rintro ⟨path, fault, hpath⟩
    cases houtcome : (σ.byRules t).outcome with
    | ok r => exact absurd hpath (not_refusesAt_of_byRules houtcome path fault)
    | error fault' => exact ⟨fault', rfl⟩

/-! ### On the way to a foreign leaf -/

theorem comesTo_of_rename (h : σ.shadowing = .rename) (t : Term) (path : Path) :
    σ.ComesTo t path := by
  intro binder _ hstop
  have hshadowing := (stopsAt_eq_true_iff.1 hstop).2
  rw [h] at hshadowing
  cases hshadowing

theorem comesTo_iff_of_stop (h : σ.shadowing = .stop) :
    σ.ComesTo t path ↔ σ.target ∉ t.bindersAlong path := by
  have hstops : ∀ binder, σ.stopsAt binder = true ↔ binder = σ.target := by
    intro binder
    rw [stopsAt_eq_true_iff, and_iff_left h]
  simp only [ComesTo, hstops]
  exact ⟨fun hcomes hmem => hcomes _ hmem rfl, fun hnot binder hmem heq => hnot (heq ▸ hmem)⟩

theorem exists_refusesAt_iff_of_rename (h : σ.shadowing = .rename) :
    (∃ path fault, σ.RefusesAt t path fault) ↔ t.foreignLeaves ≠ [] := by
  constructor
  · rintro ⟨path, fault, hrefuses⟩ hplain
    exact not_refusesAt_of_plain hplain hrefuses
  · intro hleaves
    obtain ⟨leaf, hleaf⟩ := List.exists_mem_of_ne_nil _ hleaves
    obtain ⟨path, hpath⟩ := mem_foreignLeaves_iff.1 hleaf
    exact ⟨path, _, .foreign leaf, hpath, comesTo_of_rename h t path, .foreign leaf⟩

/-- Where a substitution stops at binders of the target, a leaf above which none of them is, or one
that has to be renamed comes before the first, makes it fail. -/
theorem exists_refusesAt_iff_of_stop (h : σ.shadowing = .stop) :
    (∃ path fault, σ.RefusesAt t path fault) ↔
      ∃ path leaf, t.subterm path = .ok (.foreign leaf) ∧
        (σ.target ∉ t.bindersAlong path ∨
          ∃ outer n inner, t.bindersAlong path = outer ++ n :: inner ∧ n ∈ σ.captives ∧
            n ≠ σ.target ∧ σ.target ∉ outer) := by
  constructor
  · rintro ⟨path, fault, node, hnode, hcomes, hrefuses⟩
    rw [comesTo_iff_of_stop h] at hcomes
    cases hrefuses with
    | foreign leaf => exact ⟨path, leaf, hnode, .inl hcomes⟩
    | @binder binder body leaf others hstop hrename hleaves =>
      have hmem : leaf ∈ body.foreignLeaves := hleaves ▸ List.mem_cons_self
      obtain ⟨below, hbelow⟩ := mem_foreignLeaves_iff.1 hmem
      have htarget : binder ≠ σ.target := ne_target_of_not_stopsAt hstop h
      rw [mustRename_iff, List.mem_append, List.mem_singleton] at hrename
      refine ⟨path ++ .body :: below, leaf, ?_, .inr ⟨t.bindersAlong path, binder,
        body.bindersAlong below, ?_, hrename.resolve_right htarget, htarget, hcomes⟩⟩
      · rw [subterm_append, hnode]
        exact hbelow
      · rw [bindersAlong_append hnode]
        rfl
  · rintro ⟨path, leaf, hleaf, hnone | ⟨outer, n, inner, hbinders, hcaptive, htarget, houter⟩⟩
    · exact ⟨path, _, .foreign leaf, hleaf, (comesTo_iff_of_stop h).2 hnone, .foreign leaf⟩
    · obtain ⟨above, below, body, rfl, habove, rfl, hbelow⟩ :=
        exists_subterm_of_bindersAlong hleaf hbinders
      have hstop : ¬ σ.stopsAt n = true := fun hstops => htarget (stopsAt_eq_true_iff.1 hstops).1
      have hrename : σ.mustRename n = true := mustRename_iff.2 (List.mem_append_left _ hcaptive)
      have hmem : leaf ∈ body.foreignLeaves := mem_foreignLeaves_iff.2 ⟨below, hbelow⟩
      obtain ⟨first, others, hleaves⟩ := List.exists_cons_of_ne_nil (List.ne_nil_of_mem hmem)
      exact ⟨above, _, lam n body, habove, (comesTo_iff_of_stop h).2 houter,
        .binder hstop hrename hleaves⟩

theorem Refuses.exists_stray {node : Term} (h : σ.Refuses node fault) :
    ∃ walk leaf, fault = .stray walk leaf ∧ (walk = .allNames ∨ walk = .substitution) := by
  cases h with
  | foreign leaf => exact ⟨.substitution, leaf, rfl, .inr rfl⟩
  | @binder _ _ leaf => exact ⟨.allNames, leaf, rfl, .inl rfl⟩

end Substitution

namespace Term

open Substitution

/-- A substitution fails at the first position in preorder where it meets a foreign leaf or has to
rename a binder above one; never while a name is retired. -/
theorem subst_refuses_first_position (t replacement : Term) (target : Name) :
    (∀ leaf others shadowing, replacement.foreignLeaves = leaf :: others →
      (t.subst target replacement shadowing).outcome = .error (.stray .freeVars leaf)) ∧
    (replacement.foreignLeaves = [] → ∃ captives, replacement.freeVars = .ok captives ∧
      ((∃ fault, (t.subst target replacement .rename).outcome = .error fault) ↔
        t.foreignLeaves ≠ []) ∧
      ((∃ fault, (t.subst target replacement .stop).outcome = .error fault) ↔
        ∃ path leaf, t.subterm path = .ok (.foreign leaf) ∧
          (target ∉ t.bindersAlong path ∨
            ∃ outer n inner, t.bindersAlong path = outer ++ n :: inner ∧ n ∈ captives ∧
              n ≠ target ∧ target ∉ outer)) ∧
      ∀ shadowing fault, (t.subst target replacement shadowing).outcome = .error fault ↔
        ∃ path, FirstRefusesAt ⟨target, replacement, captives, shadowing⟩ t path fault) ∧
    ∀ shadowing fault, (t.subst target replacement shadowing).outcome = .error fault →
      ∃ walk text leaf, (walk, text) ∈ [(Walk.freeVars, "Unexpected term in free_vars: "),
          (.allNames, "Unexpected term in all_names: "), (.substitution, "Unexpected term in subst: ")] ∧
        fault = .stray walk leaf ∧ fault.message = .ok (text ++ leaf.listing) := by
  have hforeign : ∀ leaf others shadowing, replacement.foreignLeaves = leaf :: others →
      (t.subst target replacement shadowing).outcome = .error (.stray .freeVars leaf) := by
    intro leaf others shadowing hleaves
    rw [subst, ofReplacement, freeVars_of_foreign hleaves]
    rfl
  have hsubst : ∀ captives, replacement.freeVars = .ok captives → ∀ shadowing,
      t.subst target replacement shadowing =
        byRules ⟨target, replacement, captives, shadowing⟩ t := by
    intro captives hcaptives shadowing
    exact subst_eq_byRules (ofReplacement_of_freeVars hcaptives shadowing) t
  refine ⟨hforeign, ?_, ?_⟩
  · intro hplain
    obtain ⟨captives, hcaptives, _⟩ := freeVars_of_plain hplain
    refine ⟨captives, hcaptives, ?_, ?_, ?_⟩
    · rw [hsubst captives hcaptives, exists_byRules_eq_error_iff]
      exact exists_refusesAt_iff_of_rename rfl
    · rw [hsubst captives hcaptives, exists_byRules_eq_error_iff]
      exact exists_refusesAt_iff_of_stop rfl
    · intro shadowing fault
      rw [hsubst captives hcaptives]
      exact byRules_eq_error_iff
  · intro shadowing fault hfault
    cases hleaves : replacement.foreignLeaves with
    | cons leaf others =>
      rw [hforeign leaf others shadowing hleaves] at hfault
      cases hfault
      exact ⟨.freeVars, _, leaf, .head _, rfl, rfl⟩
    | nil =>
      obtain ⟨captives, hcaptives, _⟩ := freeVars_of_plain hleaves
      rw [hsubst captives hcaptives, byRules_eq_error_iff] at hfault
      obtain ⟨path, ⟨node, _, _, hrefuses⟩, _⟩ := hfault
      obtain ⟨walk, leaf, rfl, rfl | rfl⟩ := hrefuses.exists_stray
      · exact ⟨.allNames, _, leaf, .tail _ (.head _), rfl, rfl⟩
      · exact ⟨.substitution, _, leaf, .tail _ (.tail _ (.head _)), rfl, rfl⟩

/-- The foreign leaf is never reached, but met when the names below a binder are collected. -/
theorem subst_refuses_first_position_below_target :
    ((app (lam "x" (foreign .bare)) (lam "y" (lam "x" (foreign .bare)))).subst "x" (var "y")
      .stop).outcome = .error (.stray .allNames .bare) := by
  obtain ⟨_, hplain, _⟩ := subst_refuses_first_position
    (app (lam "x" (foreign .bare)) (lam "y" (lam "x" (foreign .bare)))) (var "y") "x"
  obtain ⟨captives, hcaptives, _, _, hfirst⟩ := hplain rfl
  have hnames : (var "y").freeVars = .ok ["y"] := by cbv
  obtain rfl := Except.ok.inj (hnames.symm.trans hcaptives)
  rw [hfirst]
  have hbinder : FirstRefusesAt ⟨"x", var "y", ["y"], .stop⟩ (lam "y" (lam "x" (foreign .bare))) []
      (.stray .allNames .bare) := firstRefusesAt_nil (.binder (by decide) (by decide) rfl)
  refine ⟨[.arg], Path.First.ofArg refusesAt_app_iff hbinder ?_⟩
  intro other fault'
  rw [refusesAt_lam_iff]
  rintro (⟨_, hrefuses⟩ | ⟨_, _, hstop, _⟩)
  · cases hrefuses with
    | binder hstop => exact hstop (by decide)
  · exact hstop (by decide)

end Term

end UntypedLambda

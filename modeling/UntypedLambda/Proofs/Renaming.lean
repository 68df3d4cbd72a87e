import UntypedLambda.Proofs.Names
import UntypedLambda.Proofs.Positions
import UntypedLambda.Renaming
import UntypedLambda.Term.Alpha
/-!
# Renaming a binder changes no reference

Retiring a name succeeds on every well-formed term and gives a term that differs only in bound
names. The comparison walks both terms under pairs of binders. What carries it through is that the
name which takes the place of the retired one is none of those to avoid, and that all names of the
term are among those: no binder that is passed can then hide either of the two.
-/

namespace UntypedLambda.Term

variable {name current : Name} {avoid : List Name}

theorem exists_retire {t : Term} (ht : t.WellFormed) (hcurrent : current ≠ "") (name : Name)
    (avoid : List Name) (count : Int) :
    ∃ t' count', t.retire name avoid current count = .ok (t', count') ∧ t'.WellFormed := by
  induction t generalizing current count with
  | var n =>
    by_cases hn : n = name
    · refine ⟨var current, count, ?_, hcurrent⟩
      rw [retire_var, if_pos hn, formVar, if_neg hcurrent]
      rfl
    · exact ⟨var n, count, by rw [retire_var, if_neg hn], ht⟩
  | lam n body ih =>
    by_cases hn : n = name
    · have hfresh : (mint name count avoid).1 ≠ "" := mint_ne_empty (hn ▸ ht.1) count avoid
      obtain ⟨body', count', hbody, hwf⟩ := ih ht.2 hfresh (mint name count avoid).2
      refine ⟨lam (mint name count avoid).1 body', count', ?_, hfresh, hwf⟩
      rw [retire_lam, if_pos hn]
      exact bind_eq_ok_iff.2 ⟨_, hbody, rfl⟩
    · obtain ⟨body', count', hbody, hwf⟩ := ih ht.2 hcurrent count
      refine ⟨lam n body', count', ?_, ht.1, hwf⟩
      rw [retire_lam, if_neg hn]
      exact bind_eq_ok_iff.2 ⟨_, hbody, rfl⟩
  | app func arg ihf iha =>
    obtain ⟨func', count₁, hfunc, hfuncwf⟩ := ihf ht.1 hcurrent count
    obtain ⟨arg', count₂, harg, hargwf⟩ := iha ht.2 hcurrent count₁
    refine ⟨app func' arg', count₂, ?_, hfuncwf, hargwf⟩
    rw [retire_app]
    exact bind_eq_ok_iff.2 ⟨_, hfunc, bind_eq_ok_iff.2 ⟨_, harg, rfl⟩⟩
  | foreign leaf => exact ht.elim

/-- What retiring a name does, node by node, from a current name and a count to a term and a count. -/
inductive Retires (name : Name) (avoid : List Name) : Term → Name → Int → Term → Int → Prop
  | current (current : Name) (count : Int) :
      Retires name avoid (.var name) current count (.var current) count
  | other {n : Name} (hne : n ≠ name) (current : Name) (count : Int) :
      Retires name avoid (.var n) current count (.var n) count
  | minted {body body' : Term} (current : Name) {count count' : Int}
      (hbody : Retires name avoid body (mint name count avoid).1 (mint name count avoid).2 body'
        count') :
      Retires name avoid (.lam name body) current count (.lam (mint name count avoid).1 body') count'
  | passed {n current : Name} {body body' : Term} {count count' : Int} (hne : n ≠ name)
      (hbody : Retires name avoid body current count body' count') :
      Retires name avoid (.lam n body) current count (.lam n body') count'
  | app {func func' arg arg' : Term} {current : Name} {count count₁ count₂ : Int}
      (hfunc : Retires name avoid func current count func' count₁)
      (harg : Retires name avoid arg current count₁ arg' count₂) :
      Retires name avoid (.app func arg) current count (.app func' arg') count₂

theorem retires_of_retire {t t' : Term} {count count' : Int}
    (h : t.retire name avoid current count = .ok (t', count')) :
    Retires name avoid t current count t' count' := by
  induction t generalizing t' current count count' with
  | var n =>
    rw [retire_var] at h
    split at h
    · rename_i hn
      obtain ⟨v, hv, h⟩ := bind_eq_ok_iff.1 h
      simp only [formVar] at hv
      split at hv <;> cases hv
      cases h
      exact hn ▸ .current current count
    · rename_i hn
      cases h
      exact .other hn current count
  | lam n body ih =>
    rw [retire_lam] at h
    split at h
    · rename_i hn
      obtain ⟨⟨body', count₁⟩, hbody, h⟩ := bind_eq_ok_iff.1 h
      cases h
      subst hn
      exact .minted current (ih hbody)
    · rename_i hn
      obtain ⟨⟨body', count₁⟩, hbody, h⟩ := bind_eq_ok_iff.1 h
      cases h
      exact .passed hn (ih hbody)
  | app func arg ihf iha =>
    rw [retire_app] at h
    obtain ⟨⟨func', count₁⟩, hfunc, h⟩ := bind_eq_ok_iff.1 h
    obtain ⟨⟨arg', count₂⟩, harg, h⟩ := bind_eq_ok_iff.1 h
    cases h
    exact .app (ihf hfunc) (iha harg)
  | foreign leaf =>
    rw [retire_foreign] at h
    cases h

theorem Retires.count_le {t t' : Term} {count count' : Int}
    (h : Retires name avoid t current count t' count') : count ≤ count' := by
  induction h with
  | current => exact Int.le_refl _
  | other => exact Int.le_refl _
  | @minted _ _ _ count _ _ ih =>
    have hminted := lt_mint_snd name count avoid
    omega
  | passed _ _ ih => exact ih
  | app _ _ ihf iha => exact Int.le_trans ihf iha

/-- From a term without a foreign leaf a name can be retired even if names are empty, since what takes
its place is marked. -/
theorem exists_retire_of_plain {t : Term} (ht : t.foreignLeaves = []) (hcurrent : current ≠ "")
    {count : Int} (hcount : 0 ≤ count) (name : Name) (avoid : List Name) :
    ∃ t' count', t.retire name avoid current count = .ok (t', count') := by
  induction t generalizing current count with
  | var n =>
    by_cases hn : n = name
    · refine ⟨var current, count, ?_⟩
      rw [retire_var, if_pos hn, formVar, if_neg hcurrent]
      rfl
    · exact ⟨var n, count, by rw [retire_var, if_neg hn]⟩
  | lam n body ih =>
    by_cases hn : n = name
    · have hminted := lt_mint_snd name count avoid
      obtain ⟨body', count', hbody⟩ := ih ht (mint_ne_empty_of_nonneg name hcount avoid)
        (show 0 ≤ (mint name count avoid).2 by omega)
      refine ⟨lam (mint name count avoid).1 body', count', ?_⟩
      rw [retire_lam, if_pos hn]
      exact bind_eq_ok_iff.2 ⟨_, hbody, rfl⟩
    · obtain ⟨body', count', hbody⟩ := ih ht hcurrent hcount
      refine ⟨lam n body', count', ?_⟩
      rw [retire_lam, if_neg hn]
      exact bind_eq_ok_iff.2 ⟨_, hbody, rfl⟩
  | app func arg ihf iha =>
    obtain ⟨hfuncPlain, hargPlain⟩ := List.append_eq_nil_iff.1 ht
    obtain ⟨func', count₁, hfunc⟩ := ihf hfuncPlain hcurrent hcount
    have hcount₁ := (retires_of_retire hfunc).count_le
    obtain ⟨arg', count₂, harg⟩ := iha hargPlain hcurrent (show 0 ≤ count₁ by omega)
    refine ⟨app func' arg', count₂, ?_⟩
    rw [retire_app]
    exact bind_eq_ok_iff.2 ⟨_, hfunc, bind_eq_ok_iff.2 ⟨_, harg, rfl⟩⟩
  | foreign leaf => cases ht

theorem Retires.foreignLeaves_eq_nil {t t' : Term} {count count' : Int}
    (h : Retires name avoid t current count t' count') : t'.foreignLeaves = [] := by
  induction h with
  | current => rfl
  | other => rfl
  | minted _ _ ih => exact ih
  | passed _ _ ih => exact ih
  | app _ _ ihf iha => exact List.append_eq_nil_iff.2 ⟨ihf, iha⟩

/-- Retiring a name keeps every reference, under pairs of binders that pair the retired name with its
successor and every other name of the term with itself. -/
theorem Retires.alphaUnder {t t' : Term} {count count' : Int} {pairs : List (Name × Name)}
    (h : Retires name avoid t current count t' count') (hlabels : ∀ n ∈ t.labels, n ∈ avoid)
    (hcurrent : ∀ n ∈ t.labels, n ≠ name → n ≠ current) (hname : SameReference pairs name current)
    (hother : ∀ n ∈ t.labels, n ≠ name → SameReference pairs n n) : AlphaUnder pairs t t' := by
  induction h generalizing pairs with
  | current => exact hname
  | @other n hne => exact hother n List.mem_cons_self hne
  | @minted body body' current count count' _ ih =>
    -- The binder is minted anew: it is outside the names to avoid and takes over below it.
    have hbodyLabels : ∀ m ∈ body.labels, m ∈ avoid := fun m hm =>
      hlabels m (List.mem_cons_of_mem _ hm)
    have hminted := mint_notMem name count avoid
    have hfresh : ∀ m ∈ body.labels, m ≠ (mint name count avoid).1 := fun m hm heq =>
      hminted (heq ▸ hbodyLabels m hm)
    refine ih hbodyLabels (fun m hm _ => hfresh m hm) (.inl ⟨rfl, rfl⟩) fun m hm hne => ?_
    exact .inr ⟨hne, hfresh m hm, hother m (List.mem_cons_of_mem _ hm) hne⟩
  | @passed n current body body' count count' hn _ ih =>
    have hbinder : n ≠ current := hcurrent n List.mem_cons_self hn
    refine ih (fun m hm => hlabels m (List.mem_cons_of_mem _ hm))
      (fun m hm => hcurrent m (List.mem_cons_of_mem _ hm))
      (.inr ⟨Ne.symm hn, Ne.symm hbinder, hname⟩) fun m hm hne => ?_
    by_cases hmn : m = n
    · exact .inl ⟨hmn, hmn⟩
    · exact .inr ⟨hmn, hmn, hother m (List.mem_cons_of_mem _ hm) hne⟩
  | @app func func' arg arg' _ _ _ _ _ _ ihf iha =>
    have hleft : ∀ m ∈ func.labels, m ∈ (Term.app func arg).labels := fun m =>
      List.mem_append_left _
    have hright : ∀ m ∈ arg.labels, m ∈ (Term.app func arg).labels := fun m =>
      List.mem_append_right _
    exact ⟨ihf (fun m hm => hlabels m (hleft m hm)) (fun m hm => hcurrent m (hleft m hm)) hname
        fun m hm => hother m (hleft m hm),
      iha (fun m hm => hlabels m (hright m hm)) (fun m hm => hcurrent m (hright m hm)) hname
        fun m hm => hother m (hright m hm)⟩

theorem exists_refresh {binder : Name} {body : Term} (hbinder : binder ≠ "")
    (hbody : body.WellFormed) (avoid : List Name) :
    ∃ fresh body', refresh binder body avoid = .ok (fresh, body') ∧ fresh ≠ "" ∧
      body'.WellFormed ∧ fresh ∉ avoid ∧ AlphaUnder [(binder, fresh)] body body' := by
  obtain ⟨names, hnames, hmem⟩ := allNames_of_plain hbody.foreignLeaves_eq_nil
  have hminted := mint_notMem binder 0 (avoid ++ names ++ [binder])
  have hfresh : (mint binder 0 (avoid ++ names ++ [binder])).1 ≠ "" := mint_ne_empty hbinder _ _
  obtain ⟨body', count, hretire, hwf⟩ := exists_retire hbody hfresh binder
    (avoid ++ names ++ [binder]) (mint binder 0 (avoid ++ names ++ [binder])).2
  have hlabels : ∀ n ∈ body.labels, n ∈ avoid ++ names ++ [binder] := fun n hn =>
    List.mem_append_left _ (List.mem_append_right _ ((hmem n).2 hn))
  refine ⟨_, body', ?_, hfresh, hwf, fun havoid => ?_, ?_⟩
  · rw [refresh]
    exact bind_eq_ok_iff.2 ⟨names, hnames, bind_eq_ok_iff.2 ⟨_, hretire, rfl⟩⟩
  · exact hminted (List.mem_append_left _ (List.mem_append_left _ havoid))
  · have hother : ∀ n ∈ body.labels, n ≠ (mint binder 0 (avoid ++ names ++ [binder])).1 :=
      fun n hn heq => hminted (heq ▸ hlabels n hn)
    exact (retires_of_retire hretire).alphaUnder hlabels (fun n hn _ => hother n hn)
      (.inl ⟨rfl, rfl⟩) fun n hn hne => .inr ⟨hne, hother n hn, rfl⟩

theorem plain_of_refresh {binder fresh : Name} {body body' : Term}
    (h : refresh binder body avoid = .ok (fresh, body')) :
    body.foreignLeaves = [] ∧ body'.foreignLeaves = [] := by
  obtain ⟨names, hnames, h⟩ := bind_eq_ok_iff.1 h
  obtain ⟨⟨retired, count⟩, hretire, h⟩ := bind_eq_ok_iff.1 h
  cases h
  refine ⟨?_, (retires_of_retire hretire).foreignLeaves_eq_nil⟩
  cases hleaves : body.foreignLeaves with
  | nil => rfl
  | cons leaf others =>
    rw [allNames_of_foreign hleaves] at hnames
    cases hnames

/-- A binder cannot be renamed only because the names of the body cannot be collected. -/
theorem foreign_of_refresh_eq_error {binder : Name} {body : Term} {fault : Fault}
    (h : refresh binder body avoid = .error fault) :
    ∃ leaf others, body.foreignLeaves = leaf :: others ∧ fault = .stray .allNames leaf := by
  cases hleaves : body.foreignLeaves with
  | cons leaf others =>
    rw [refresh, allNames_of_foreign hleaves] at h
    cases h
    exact ⟨leaf, others, rfl, rfl⟩
  | nil =>
    obtain ⟨names, hnames, _⟩ := allNames_of_plain hleaves
    have hminted := lt_mint_snd binder 0 (avoid ++ names ++ [binder])
    obtain ⟨body', count', hretire⟩ := exists_retire_of_plain hleaves
      (mint_ne_empty_of_nonneg binder (Int.le_refl 0) (avoid ++ names ++ [binder]))
      (Int.le_of_lt hminted) binder (avoid ++ names ++ [binder])
    have hok : refresh binder body avoid = .ok ((mint binder 0 (avoid ++ names ++ [binder])).1, body') :=
      bind_eq_ok_iff.2 ⟨names, hnames, bind_eq_ok_iff.2 ⟨_, hretire, rfl⟩⟩
    rw [hok] at h
    cases h

theorem outcome_rename_of_refresh {binder fresh : Name} {body body' : Term}
    (h : refresh binder body avoid = .ok (fresh, body')) :
    ((lam binder body).rename avoid).outcome = .ok (lam fresh body') := by
  rw [rename, h, Logged.outcome_bind_of_ok rfl, Logged.outcome_bind_of_ok rfl]
  rfl

/-- To rename a binder is to retire its name from the whole abstraction, where it does not occur
free: with which current name makes no difference. -/
theorem retires_of_refresh {binder fresh : Name} {body body' : Term}
    (h : refresh binder body avoid = .ok (fresh, body')) :
    ∃ names count, body.allNames = .ok names ∧ fresh ∉ avoid ++ names ++ [binder] ∧
      ∀ current, Retires binder (avoid ++ names ++ [binder]) (lam binder body) current 0
        (lam fresh body') count := by
  obtain ⟨names, hnames, h⟩ := bind_eq_ok_iff.1 h
  obtain ⟨⟨retired, count⟩, hretire, h⟩ := bind_eq_ok_iff.1 h
  cases h
  exact ⟨names, count, hnames, mint_notMem binder 0 _, fun current =>
    .minted current (retires_of_retire hretire)⟩

/-! ### Which binders get a new name

All those of the retired name do, wherever they stand, and no others. -/

/-- A binder of the retired name has become a marked variant of it beyond the count, and anything
else is as it was. -/
def Retired (name : Name) (avoid : List Name) (count : Int) (before after : Option Name) : Prop :=
  (before ≠ some name ∧ after = before) ∨
  (before = some name ∧ ∃ marks, count < marks ∧ after = some (marked name marks) ∧
    marked name marks ∉ avoid)

theorem Retired.mono {count count' : Int} {before after : Option Name}
    (h : Retired name avoid count' before after) (hle : count ≤ count') :
    Retired name avoid count before after := by
  rcases h with h | ⟨hbefore, marks, hlt, h⟩
  · exact .inl h
  · exact .inr ⟨hbefore, marks, Int.lt_of_le_of_lt hle hlt, h⟩

theorem Retired.of_avoid_subset {avoid' : List Name} {count : Int} {before after : Option Name}
    (h : Retired name avoid' count before after) (havoid : ∀ n ∈ avoid, n ∈ avoid') :
    Retired name avoid count before after := by
  rcases h with h | ⟨hbefore, marks, hlt, hafter, hnot⟩
  · exact .inl h
  · exact .inr ⟨hbefore, marks, hlt, hafter, fun hmem => hnot (havoid _ hmem)⟩

theorem Retired.eq_some_iff {count : Int} {before after : Option Name} {n : Name}
    (h : Retired name avoid count before after) (hn : n ∈ avoid) (hne : n ≠ name) :
    after = some n ↔ before = some n := by
  rcases h with ⟨_, rfl⟩ | ⟨rfl, marks, _, rfl, hnot⟩
  · exact Iff.rfl
  · refine iff_of_false ?_ ?_
    · intro heq
      apply hnot
      rw [Option.some.inj heq]
      exact hn
    · intro heq
      exact hne (Option.some.inj heq).symm

theorem retired_mint (name : Name) (avoid : List Name) (count : Int) :
    Retired name avoid count (some name) (some (mint name count avoid).1) := by
  refine .inr ⟨rfl, (mint name count avoid).2, lt_mint_snd name count avoid, ?_, ?_⟩
  · rw [← mint_fst]
  · rw [← mint_fst]
    exact mint_notMem name count avoid

theorem retired_none (name : Name) (avoid : List Name) (count : Int) :
    Retired name avoid count none none :=
  .inl ⟨nofun, rfl⟩

theorem Retires.retired_binderAt {t t' : Term} {count count' : Int}
    (h : Retires name avoid t current count t' count') (path : Path) :
    Retired name avoid count (t.binderAt path) (t'.binderAt path) := by
  induction h generalizing path with
  | current =>
    rw [binderAt_var, binderAt_var]
    exact retired_none name avoid _
  | other =>
    rw [binderAt_var]
    exact retired_none name avoid _
  | @minted _ _ _ count _ _ ih =>
    cases path with
    | nil => exact retired_mint name avoid count
    | cons edge path =>
      cases edge with
      | body => exact (ih path).mono (Int.le_of_lt (lt_mint_snd name count avoid))
      | _ => exact retired_none name avoid count
  | @passed n _ _ _ count _ hne _ ih =>
    cases path with
    | nil => exact .inl ⟨fun heq => hne (Option.some.inj heq), rfl⟩
    | cons edge path =>
      cases edge with
      | body => exact ih path
      | _ => exact retired_none name avoid count
  | @app _ _ _ _ _ count _ _ hfunc _ ihf iha =>
    cases path with
    | nil => exact retired_none name avoid count
    | cons edge path =>
      cases edge with
      | func => exact ihf path
      | arg => exact (iha path).mono hfunc.count_le
      | body => exact retired_none name avoid count

theorem retired_binderAt_of_refresh {binder fresh : Name} {body body' : Term}
    (h : refresh binder body avoid = .ok (fresh, body')) (path : Path) :
    Retired binder avoid 0 ((lam binder body).binderAt path) ((lam fresh body').binderAt path) := by
  obtain ⟨names, count, _, _, hretires⟩ := retires_of_refresh h
  apply ((hretires binder).retired_binderAt path).of_avoid_subset
  intro n hn
  rw [List.append_assoc]
  exact List.mem_append_left _ hn

end UntypedLambda.Term

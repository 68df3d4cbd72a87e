import UntypedLambda.Proofs.Nameless.Contraction
import UntypedLambda.Proofs.Replacement
import UntypedLambda.Proofs.Substitution.Encoding
import UntypedLambda.Reduction
/-!
# Contraction at a path

Following a path, contracting the redex at its end and putting the contractum in its place is one
relation between terms, given here by one rule for the redex and one for each edge. On the nameless
forms it is contraction at the same path, under every scope that names the free variables: the
enclosing binders are part of that scope, whatever they are called.
-/

namespace UntypedLambda.Term

def RedexAt (t : Term) (path : Path) (redex : Term) : Prop :=
  t.subterm path = .ok redex ∧ redex.isRedex = true

def HasRedexAt (t : Term) (path : Path) : Prop :=
  ∃ redex, t.RedexAt path redex

/-- The contraction of the redex at the end of a path. -/
inductive ContractsAt (shadowing : Shadowing) : Path → Term → Term → Prop
  | root {binder : Name} {body arg contractum : Term}
      (h : (body.subst binder arg shadowing).outcome = .ok contractum) :
      ContractsAt shadowing [] (.app (.lam binder body) arg) contractum
  | body {path : Path} {t t' : Term} (binder : Name) (h : ContractsAt shadowing path t t') :
      ContractsAt shadowing (.body :: path) (.lam binder t) (.lam binder t')
  | func {path : Path} {t t' : Term} (arg : Term) (h : ContractsAt shadowing path t t') :
      ContractsAt shadowing (.func :: path) (.app t arg) (.app t' arg)
  | arg {path : Path} {t t' : Term} (func : Term) (h : ContractsAt shadowing path t t') :
      ContractsAt shadowing (.arg :: path) (.app func t) (.app func t')

variable {shadowing : Shadowing} {path : Path} {t t' : Term}

/-! ### Paths, edge by edge -/

theorem hasRedexAt_nil {func : Term} (h : func.isValue = true) (arg : Term) :
    (app func arg).HasRedexAt [] :=
  ⟨app func arg, rfl, (isRedex_app func arg).trans h⟩

theorem HasRedexAt.under (h : t.HasRedexAt path) (binder : Name) :
    (lam binder t).HasRedexAt (.body :: path) :=
  h

theorem HasRedexAt.applied (h : t.HasRedexAt path) (arg : Term) :
    (app t arg).HasRedexAt (.func :: path) :=
  h

theorem HasRedexAt.operand (h : t.HasRedexAt path) (func : Term) :
    (app func t).HasRedexAt (.arg :: path) :=
  h

theorem redexAt_lam_iff {binder : Name} {body redex : Term} :
    (lam binder body).RedexAt path redex ↔
      ∃ rest, path = .body :: rest ∧ body.RedexAt rest redex := by
  constructor
  · rintro ⟨hsubterm, hredex⟩
    rcases subterm_lam_eq_ok_iff.1 hsubterm with ⟨rfl, rfl⟩ | ⟨rest, rfl, hrest⟩
    · cases hredex
    · exact ⟨rest, rfl, hrest, hredex⟩
  · rintro ⟨rest, rfl, hrest⟩
    exact hrest

theorem redexAt_app_iff {func arg redex : Term} :
    (app func arg).RedexAt path redex ↔
      (path = [] ∧ redex = app func arg ∧ func.isValue = true) ∨
      (∃ rest, path = .func :: rest ∧ func.RedexAt rest redex) ∨
      ∃ rest, path = .arg :: rest ∧ arg.RedexAt rest redex := by
  constructor
  · rintro ⟨hsubterm, hredex⟩
    rcases subterm_app_eq_ok_iff.1 hsubterm with ⟨rfl, rfl⟩ | ⟨rest, rfl, hrest⟩ | ⟨rest, rfl, hrest⟩
    · exact .inl ⟨rfl, rfl, (isRedex_app func arg).symm.trans hredex⟩
    · exact .inr (.inl ⟨rest, rfl, hrest, hredex⟩)
    · exact .inr (.inr ⟨rest, rfl, hrest, hredex⟩)
  · rintro (⟨rfl, rfl, hfunc⟩ | ⟨rest, rfl, hrest⟩ | ⟨rest, rfl, hrest⟩)
    · exact ⟨rfl, (isRedex_app func arg).trans hfunc⟩
    · exact hrest
    · exact hrest

theorem eq_app_lam_of_isRedex (h : t.isRedex = true) :
    ∃ binder body arg, t = app (lam binder body) arg := by
  cases t with
  | app func arg =>
    cases func with
    | lam binder body => exact ⟨binder, body, arg, rfl⟩
    | _ => cases h
  | _ => cases h

theorem contractsAt_iff :
    ContractsAt shadowing path t t' ↔ ∃ redex contractum, t.subterm path = .ok redex ∧
      redex.isRedex = true ∧ (redex.contract shadowing).outcome = .ok contractum ∧
      t.replaceAt path contractum = .ok t' := by
  constructor
  · intro h
    induction h with
    | root h => exact ⟨_, _, rfl, rfl, h, rfl⟩
    | body _ _ ih | func _ _ ih | arg _ _ ih =>
      obtain ⟨redex, contractum, hsubterm, hredex, hcontract, hreplace⟩ := ih
      exact ⟨redex, contractum, hsubterm, hredex, hcontract,
        replaceAt_cons_eq_ok_iff.2 ⟨_, _, rfl, hreplace, rfl⟩⟩
  · rintro ⟨redex, contractum, hsubterm, hredex, hcontract, hreplace⟩
    induction path generalizing t t' with
    | nil =>
      cases hsubterm
      cases hreplace
      obtain ⟨binder, body, arg, rfl⟩ := eq_app_lam_of_isRedex hredex
      exact .root hcontract
    | cons edge path ih =>
      obtain ⟨next, hnext, hsubterm⟩ := bind_eq_ok_iff.1 hsubterm
      obtain ⟨_, next', hchild, hreplace, rfl⟩ := replaceAt_cons_eq_ok_iff.1 hreplace
      rw [hnext] at hchild
      cases hchild
      have hrest := ih hsubterm hreplace
      rcases child_eq_ok hnext with ⟨binder, rfl, rfl⟩ | ⟨arg, rfl, rfl⟩ | ⟨func, rfl, rfl⟩
      · exact .body binder hrest
      · exact .func arg hrest
      · exact .arg func hrest

theorem contracts_iff : t.Contracts t' ↔ ∃ path shadowing, ContractsAt shadowing path t t' := by
  simp only [Contracts, contractsAt_iff]
  constructor
  · rintro ⟨path, redex, contractum, shadowing, h⟩
    exact ⟨path, shadowing, redex, contractum, h⟩
  · rintro ⟨path, shadowing, redex, contractum, h⟩
    exact ⟨path, redex, contractum, shadowing, h⟩

theorem IsNormal.not_hasRedexAt (h : t.IsNormal) (path : Path) : ¬ t.HasRedexAt path := by
  intro hpath
  induction path generalizing t with
  | nil =>
    obtain ⟨redex, hsubterm, hredex⟩ := hpath
    cases hsubterm
    obtain ⟨binder, body, arg, rfl⟩ := eq_app_lam_of_isRedex hredex
    cases h.1
  | cons edge path ih =>
    obtain ⟨redex, hsubterm, hredex⟩ := hpath
    obtain ⟨next, hnext, hsubterm⟩ := bind_eq_ok_iff.1 hsubterm
    have hrest : next.HasRedexAt path := ⟨redex, hsubterm, hredex⟩
    rcases child_eq_ok hnext with ⟨binder, rfl, rfl⟩ | ⟨arg, rfl, rfl⟩ | ⟨func, rfl, rfl⟩
    · have hnormal : next.IsNormal := h
      exact ih hnormal hrest
    · exact ih h.2.1 hrest
    · exact ih h.2.2 hrest

theorem isNormal_iff : t.IsNormal ↔ ∀ path, ¬ t.HasRedexAt path := by
  refine ⟨IsNormal.not_hasRedexAt, ?_⟩
  intro h
  induction t with
  | lam binder body ih =>
    exact ih fun path hpath => h (.body :: path) (hpath.under binder)
  | app func arg ihf iha =>
    refine ⟨?_, ?_, ?_⟩
    · rw [← Bool.not_eq_true]
      intro hvalue
      exact h [] (hasRedexAt_nil hvalue arg)
    · exact ihf fun path hpath => h (.func :: path) (hpath.applied arg)
    · exact iha fun path hpath => h (.arg :: path) (hpath.operand func)
  | _ => trivial

/-! ### Success -/

theorem HasRedexAt.exists_contractsAt (hpath : t.HasRedexAt path) (ht : t.WellFormed)
    (shadowing : Shadowing) : ∃ t', ContractsAt shadowing path t t' ∧ t'.WellFormed := by
  induction path generalizing t with
  | nil =>
    obtain ⟨redex, hsubterm, hredex⟩ := hpath
    cases hsubterm
    obtain ⟨binder, body, arg, rfl⟩ := eq_app_lam_of_isRedex hredex
    obtain ⟨contractum, hsubst, hwf, _⟩ := exists_subst ht.1.2 ht.2 binder shadowing
    exact ⟨contractum, .root hsubst, hwf⟩
  | cons edge path ih =>
    obtain ⟨redex, hsubterm, hredex⟩ := hpath
    obtain ⟨next, hnext, hsubterm⟩ := bind_eq_ok_iff.1 hsubterm
    have hrest : next.HasRedexAt path := ⟨redex, hsubterm, hredex⟩
    rcases child_eq_ok hnext with ⟨binder, rfl, rfl⟩ | ⟨arg, rfl, rfl⟩ | ⟨func, rfl, rfl⟩
    · obtain ⟨t', h, hwf⟩ := ih hrest ht.2
      exact ⟨lam binder t', .body binder h, ht.1, hwf⟩
    · obtain ⟨t', h, hwf⟩ := ih hrest ht.1
      exact ⟨app t' arg, .func arg h, hwf, ht.2⟩
    · obtain ⟨t', h, hwf⟩ := ih hrest ht.2
      exact ⟨app func t', .arg func h, ht.1, hwf⟩

theorem ContractsAt.hasRedexAt (h : ContractsAt shadowing path t t') : t.HasRedexAt path := by
  obtain ⟨redex, _, hsubterm, hredex, _⟩ := contractsAt_iff.1 h
  exact ⟨redex, hsubterm, hredex⟩

theorem ContractsAt.unique {u : Term} (ht' : ContractsAt shadowing path t t')
    (hu : ContractsAt shadowing path t u) : t' = u := by
  induction ht' generalizing u with
  | root h =>
    cases hu with
    | root h' =>
      rw [h] at h'
      cases h'
      rfl
  | body binder h ih =>
    cases hu with
    | body _ h' => rw [ih h']
  | func arg h ih =>
    cases hu with
    | func _ h' => rw [ih h']
  | arg func h ih =>
    cases hu with
    | arg _ h' => rw [ih h']

theorem ContractsAt.wellFormed (h : ContractsAt shadowing path t t') (ht : t.WellFormed) :
    t'.WellFormed := by
  obtain ⟨u, hu, hwf⟩ := h.hasRedexAt.exists_contractsAt ht shadowing
  rw [h.unique hu]
  exact hwf

/-! ### The nameless form -/

/-- Contraction at a path is contraction of the nameless form at that path. -/
theorem ContractsAt.encodeIn_eq (h : ContractsAt shadowing path t t') (ht : t.WellFormed)
    {scope : List Name} {T : Nameless} (hT : t.encodeIn scope = .ok T) :
    ∃ T', t'.encodeIn scope = .ok T' ∧ Nameless.ContractsAt path T T' := by
  induction h generalizing scope T with
  | @root binder body arg contractum h =>
    obtain ⟨_, A, hfunc, hA, rfl⟩ := encodeIn_app_eq_ok_iff.1 hT
    obtain ⟨B, hB, rfl⟩ := encodeIn_lam_eq_ok_iff.1 hfunc
    obtain ⟨r, hr, _, _, hencode⟩ := exists_subst ht.1.2 ht.2 binder shadowing
    rw [h] at hr
    cases hr
    exact ⟨_, hencode hB hA, .root B A⟩
  | body binder h ih =>
    obtain ⟨B, hB, rfl⟩ := encodeIn_lam_eq_ok_iff.1 hT
    obtain ⟨B', hB', hcontract⟩ := ih ht.2 hB
    exact ⟨.lam B', encodeIn_lam_eq_ok_iff.2 ⟨B', hB', rfl⟩, .body hcontract⟩
  | func arg h ih =>
    obtain ⟨F, A, hF, hA, rfl⟩ := encodeIn_app_eq_ok_iff.1 hT
    obtain ⟨F', hF', hcontract⟩ := ih ht.1 hF
    exact ⟨.app F' A, encodeIn_app_eq_ok_iff.2 ⟨F', A, hF', hA, rfl⟩, .func A hcontract⟩
  | arg func h ih =>
    obtain ⟨F, A, hF, hA, rfl⟩ := encodeIn_app_eq_ok_iff.1 hT
    obtain ⟨A', hA', hcontract⟩ := ih ht.2 hA
    exact ⟨.app F A', encodeIn_app_eq_ok_iff.2 ⟨F, A', hF, hA', rfl⟩, .arg F hcontract⟩

theorem hasRedexAt_of_encodeIn {T T' : Nameless} (h : Nameless.ContractsAt path T T')
    {scope : List Name} (hT : t.encodeIn scope = .ok T) : t.HasRedexAt path := by
  induction h generalizing t scope with
  | root B A =>
    obtain ⟨func, arg, rfl, hF, _⟩ := eq_app_of_encodeIn hT
    obtain ⟨binder, body, rfl, _⟩ := eq_lam_of_encodeIn hF
    exact hasRedexAt_nil rfl arg
  | body _ ih =>
    obtain ⟨binder, body, rfl, hB⟩ := eq_lam_of_encodeIn hT
    exact (ih hB).under binder
  | func A _ ih =>
    obtain ⟨func, arg, rfl, hF, _⟩ := eq_app_of_encodeIn hT
    exact (ih hF).applied arg
  | arg F _ ih =>
    obtain ⟨func, arg, rfl, _, hA⟩ := eq_app_of_encodeIn hT
    exact (ih hA).operand func

theorem ContractsAt.mem_free (h : ContractsAt shadowing path t t') (ht : t.WellFormed) {n : Name}
    (hn : n ∈ t'.free) : n ∈ t.free := by
  obtain ⟨T, hT⟩ := ht.exists_encodeIn fun _ => id
  obtain ⟨T', hT', _⟩ := h.encodeIn_eq ht hT
  exact (exists_encodeIn_iff.1 ⟨T', hT'⟩).2 n hn

/-! ### Foreign leaves -/

theorem mem_foreignLeaves_of_byRules {σ : Substitution} {r : Term} {leaf : Foreign}
    (hσ : σ.replacement.foreignLeaves = []) (h : (σ.byRules t).outcome = .ok r)
    (hleaf : leaf ∈ r.foreignLeaves) : leaf ∈ t.foreignLeaves := by
  fun_induction Substitution.byRules σ t generalizing r with
  | case1 name =>
    cases h
    rw [Substitution.onVar] at hleaf
    split at hleaf
    · rw [hσ] at hleaf
      cases hleaf
    · exact hleaf
  | case2 binder body hstop =>
    cases h
    exact hleaf
  | case3 binder body hstop hrename fresh renamed hrefresh ih =>
    -- A body that was renamed has no foreign leaf, so there is none to be found.
    rw [Logged.outcome_bind_of_ok rfl, Logged.outcome_bind] at h
    obtain ⟨body', hbody, h⟩ := bind_eq_ok_iff.1 h
    cases h
    have hnone := ih hbody hleaf
    rw [(plain_of_refresh hrefresh).2] at hnone
    cases hnone
  | case4 binder body hstop hrename fault hrefresh => cases h
  | case5 binder body hstop hrename ih =>
    rw [Logged.outcome_bind] at h
    obtain ⟨body', hbody, h⟩ := bind_eq_ok_iff.1 h
    cases h
    exact ih hbody hleaf
  | case6 func arg ihf iha =>
    rw [Logged.outcome_bind] at h
    obtain ⟨func', hfunc, h⟩ := bind_eq_ok_iff.1 h
    rw [Logged.outcome_bind] at h
    obtain ⟨arg', harg, h⟩ := bind_eq_ok_iff.1 h
    cases h
    exact List.mem_append.2 ((List.mem_append.1 hleaf).imp (ihf hfunc) (iha harg))
  | case7 leaf => cases h

theorem mem_foreignLeaves_of_subst {target : Name} {replacement r : Term} {leaf : Foreign}
    (h : (t.subst target replacement shadowing).outcome = .ok r) (hleaf : leaf ∈ r.foreignLeaves) :
    leaf ∈ t.foreignLeaves := by
  cases hleaves : replacement.foreignLeaves with
  | nil =>
    obtain ⟨captives, hcaptives, _⟩ := freeVars_of_plain hleaves
    rw [subst_eq_byRules (ofReplacement_of_freeVars hcaptives shadowing)] at h
    exact mem_foreignLeaves_of_byRules hleaves h hleaf
  | cons first others =>
    rw [subst, Substitution.ofReplacement, freeVars_of_foreign hleaves] at h
    cases h

theorem ContractsAt.mem_foreignLeaves {leaf : Foreign} (h : ContractsAt shadowing path t t')
    (hleaf : leaf ∈ t'.foreignLeaves) : leaf ∈ t.foreignLeaves := by
  induction h with
  | root h =>
    have hbody := mem_foreignLeaves_of_subst h hleaf
    exact List.mem_append_left _ hbody
  | body _ _ ih => exact ih hleaf
  | func _ _ ih => exact List.mem_append.2 ((List.mem_append.1 hleaf).imp_left ih)
  | arg _ _ ih => exact List.mem_append.2 ((List.mem_append.1 hleaf).imp_right ih)

end UntypedLambda.Term

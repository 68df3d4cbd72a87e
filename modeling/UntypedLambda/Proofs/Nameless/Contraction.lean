import UntypedLambda.Nameless.Path
/-!
# Contraction at a path, by rules

The contraction of the redex at the end of a path, as a relation: one rule for the redex and one for
each edge. What is proved of all contractions is proved by induction on it.
-/

namespace UntypedLambda.Nameless

inductive ContractsAt : Path → Nameless → Nameless → Prop
  | root (body arg : Nameless) : ContractsAt [] (.app (.lam body) arg) (subst 0 arg body)
  | body {path : Path} {t t' : Nameless} (h : ContractsAt path t t') :
      ContractsAt (.body :: path) (.lam t) (.lam t')
  | func {path : Path} {t t' : Nameless} (arg : Nameless) (h : ContractsAt path t t') :
      ContractsAt (.func :: path) (.app t arg) (.app t' arg)
  | arg {path : Path} {t t' : Nameless} (func : Nameless) (h : ContractsAt path t t') :
      ContractsAt (.arg :: path) (.app func t) (.app func t')

variable {path : Path} {t t' : Nameless}

theorem contractsAt_iff_contractAt? : ContractsAt path t t' ↔ t.contractAt? path = some t' := by
  constructor
  · intro h
    induction h with
    | root body arg => rfl
    | body h ih => rw [contractAt?, ih, Option.map_some]
    | func arg h ih => rw [contractAt?, ih, Option.map_some]
    | arg func h ih => rw [contractAt?, ih, Option.map_some]
  · intro h
    fun_induction contractAt? t path generalizing t' with
    | case1 t =>
      cases t with
      | app func arg =>
        cases func with
        | lam body =>
          cases h
          exact .root body arg
        | _ => cases h
      | _ => cases h
    | case2 body path ih =>
      obtain ⟨body', hbody, rfl⟩ := Option.map_eq_some_iff.1 h
      exact .body (ih hbody)
    | case3 func arg path ih =>
      obtain ⟨func', hfunc, rfl⟩ := Option.map_eq_some_iff.1 h
      exact .func arg (ih hfunc)
    | case4 func arg path ih =>
      obtain ⟨arg', harg, rfl⟩ := Option.map_eq_some_iff.1 h
      exact .arg func (ih harg)
    | case5 t path => cases h

theorem ContractsAt.unique {u v : Nameless} (hu : ContractsAt path t u)
    (hv : ContractsAt path t v) : u = v := by
  rw [contractsAt_iff_contractAt?] at hu hv
  rw [hu] at hv
  exact Option.some.inj hv

end UntypedLambda.Nameless

import UntypedLambda.Term.Occurrence
import UntypedLambda.Term.Pretty
/-!
# The usual notation can be read back

A reader for the usual notation takes a text one character at a time. It keeps the characters since the
last sign, which may become a name, and a group for each parenthesis that is still open: the binders that
the group began with and the application that it holds so far. Since an abstraction takes all of its
group, only the first part of a group can be one that is not enclosed.

Every term whose names hold no sign is read back from its text, so no two of them share one. What is
printed for a part of a term leaves the reader where the part belongs, whatever group it stands in; only
the last name is still pending there, and the next sign settles it.
-/

namespace UntypedLambda.Notation

inductive Sign where
  | blank
  | opening
  | closing
  | dot
  | lambda
  deriving DecidableEq

def Sign.ofChar? : Char → Option Sign
  | ' ' => some .blank
  | '(' => some .opening
  | ')' => some .closing
  | '.' => some .dot
  | 'λ' => some .lambda
  | _ => none

/-- A part of the text between parentheses: its binders, innermost first, and the application of the
parts that follow them. -/
structure Group where
  binders : List Name
  spine : Option Term
  deriving DecidableEq

namespace Group

def empty : Group :=
  ⟨[], none⟩

def under (g : Group) (binder : Name) : Group :=
  { g with binders := binder :: g.binders }

def feed (g : Group) (part : Term) : Group :=
  match g.spine with
  | none => { g with spine := some part }
  | some func => { g with spine := some (.app func part) }

def abstracted (g : Group) (t : Term) : Term :=
  g.binders.foldl (fun body binder => .lam binder body) t

def term (g : Group) : Option Term :=
  g.spine.map g.abstracted

end Group

inductive Phase where
  /-- A name, or nothing before a sign that begins something else. -/
  | operand
  /-- The name of a binder. -/
  | binder
  /-- Nothing: a parenthesis was closed. -/
  | closed
  deriving DecidableEq

structure Reading where
  word : List Char
  phase : Phase
  group : Group
  outer : List Group

namespace Reading

/-- The innermost group with the pending name, if the text can go on after a part there. -/
def settled (r : Reading) : Option Group :=
  match r.phase with
  | .operand => some (r.group.feed (.var (String.ofList r.word)))
  | .binder => none
  | .closed => if r.word = [] then some r.group else none

def meet (r : Reading) : Sign → Option Reading
  | .blank => do return ⟨[], .operand, ← r.settled, r.outer⟩
  | .opening =>
    if r.phase = .operand ∧ r.word = [] then some ⟨[], .operand, .empty, r.group :: r.outer⟩
    else none
  | .closing => do
    let t ← (← r.settled).term
    match r.outer with
    | [] => none
    | g :: outer => return ⟨[], .closed, g.feed t, outer⟩
  | .dot =>
    if r.phase = .binder then some ⟨[], .operand, r.group.under (String.ofList r.word), r.outer⟩
    else none
  | .lambda =>
    if r.phase = .operand ∧ r.word = [] ∧ r.group.spine = none then
      some ⟨[], .binder, r.group, r.outer⟩
    else none

def step (r : Reading) (c : Char) : Option Reading :=
  match Sign.ofChar? c with
  | some sign => r.meet sign
  | none => some { r with word := r.word ++ [c] }

def before (g : Group) (outer : List Group) : Reading :=
  ⟨[], .operand, g, outer⟩

end Reading

def read (text : String) : Option Term := do
  let r ← text.toList.foldlM Reading.step (.before .empty [])
  match r.outer with
  | [] => (← r.settled).term
  | _ :: _ => none

/-- A name without any of the signs. -/
def Plain (name : Name) : Prop :=
  ∀ c ∈ name.toList, c ∉ [' ', '(', ')', '.', 'λ']

instance decidablePlain (name : Name) : Decidable (Plain name) :=
  List.decidableBAll (fun c => c ∉ [' ', '(', ')', '.', 'λ']) name.toList

/-! ### What the reader makes of each piece of text -/

variable {start : Reading} {g g' : Group} {outer : List Group} {t : Term} {name : Name}
  {text text' : List Char}

/-- A text leads to the end of a part, with this group innermost and these around it. -/
def Reads (start : Reading) (text : List Char) (g : Group) (outer : List Group) : Prop :=
  ∃ r, text.foldlM Reading.step start = some r ∧ r.settled = some g ∧ r.outer = outer

theorem ofChar?_of_notMem {c : Char} (h : c ∉ [' ', '(', ')', '.', 'λ']) : Sign.ofChar? c = none := by
  simp only [List.mem_cons, List.not_mem_nil, or_false, not_or] at h
  rw [Sign.ofChar?] <;> simp [h]

theorem foldlM_step_of_notMem {word : List Char} (h : ∀ c ∈ word, c ∉ [' ', '(', ')', '.', 'λ'])
    (r : Reading) : word.foldlM Reading.step r = some { r with word := r.word ++ word } := by
  induction word generalizing r with
  | nil => simp
  | cons c word ih =>
    rw [List.forall_mem_cons] at h
    have hstep : r.step c = some { r with word := r.word ++ [c] } := by
      rw [Reading.step, ofChar?_of_notMem h.1]
    rw [List.foldlM_cons, hstep, Option.bind_eq_bind, Option.bind_some, ih h.2]
    simp

theorem reads_name (h : Plain name) (g : Group) (outer : List Group) :
    Reads (.before g outer) name.toList (g.feed (.var name)) outer := by
  refine ⟨_, foldlM_step_of_notMem h _, ?_, rfl⟩
  simp [Reading.settled, Reading.before]

theorem Reads.application (hfunc : Reads start text g outer)
    (harg : Reads (.before g outer) text' g' outer) :
    Reads start (text ++ ' ' :: text') g' outer := by
  obtain ⟨r, hr, hsettled, rfl⟩ := hfunc
  obtain ⟨r', hr', hsettled', houter⟩ := harg
  refine ⟨r', ?_, hsettled', houter⟩
  have hblank : r.step ' ' = some (.before g r.outer) := by
    rw [Reading.step]
    simp [Sign.ofChar?, Reading.meet, hsettled, Reading.before]
  rw [List.foldlM_append, hr]
  simp only [Option.bind_eq_bind, Option.bind_some, List.foldlM_cons, hblank]
  exact hr'

theorem Reads.enclosed (h : Reads (.before .empty (g :: outer)) text g' (g :: outer))
    (hterm : g'.term = some t) :
    Reads (.before g outer) ('(' :: (text ++ [')'])) (g.feed t) outer := by
  obtain ⟨r, hr, hsettled, houter⟩ := h
  refine ⟨⟨[], .closed, g.feed t, outer⟩, ?_, rfl, rfl⟩
  have hopening : (Reading.before g outer).step '(' = some (.before .empty (g :: outer)) := rfl
  have hclosing : r.step ')' = some ⟨[], .closed, g.feed t, outer⟩ := by
    rw [Reading.step]
    simp [Sign.ofChar?, Reading.meet, hsettled, hterm, houter]
  rw [List.foldlM_cons, hopening, Option.bind_eq_bind, Option.bind_some, List.foldlM_append, hr]
  simp [hclosing]

theorem Reads.abstraction (hname : Plain name) (hg : g.spine = none)
    (h : Reads (.before (g.under name) outer) text g' outer) :
    Reads (.before g outer) ('λ' :: (name.toList ++ '.' :: text)) g' outer := by
  obtain ⟨r, hr, hsettled, houter⟩ := h
  refine ⟨r, ?_, hsettled, houter⟩
  have hlambda : (Reading.before g outer).step 'λ' = some ⟨[], .binder, g, outer⟩ := by
    rw [Reading.step]
    simp [Sign.ofChar?, Reading.meet, Reading.before, hg]
  have hdot : Reading.step ⟨name.toList, .binder, g, outer⟩ '.' =
      some (.before (g.under name) outer) := by
    rw [Reading.step]
    simp [Sign.ofChar?, Reading.meet, Reading.before]
  rw [List.foldlM_cons, hlambda, Option.bind_eq_bind, Option.bind_some, List.foldlM_append,
    foldlM_step_of_notMem hname]
  simp only [List.nil_append, Option.bind_eq_bind, Option.bind_some, List.foldlM_cons, hdot]
  exact hr

/-! ### What is printed for a term -/

/-- The text of a term is read in any group that holds no part yet. An abstraction puts its binders into
the group; anything else becomes a part of it. -/
def ReadIn (t : Term) (text : String) : Prop :=
  ∀ (g : Group) (outer : List Group), g.spine = none →
    ∃ g', Reads (.before g outer) text.toList g' outer ∧ g'.term = some (g.abstracted t) ∧
      (t.isValue = false → g' = g.feed t)

theorem toList_parenthesised (text : String) :
    (Term.parenthesised true text).toList = '(' :: (text.toList ++ [')']) := by
  simp [Term.parenthesised]

theorem ReadIn.enclosed {s : String} (h : ReadIn t s) (g : Group) (outer : List Group) :
    Reads (.before g outer) (Term.parenthesised true s).toList (g.feed t) outer := by
  obtain ⟨g', hreads, hterm, _⟩ := h .empty (g :: outer) rfl
  rw [toList_parenthesised]
  exact hreads.enclosed hterm

theorem ReadIn.asFunc {s : String} (h : ReadIn t s) (hg : g.spine = none) (outer : List Group)
    (arg : Term) :
    Reads (.before g outer) (Term.nested s t.precedence (Term.app t arg).precedence true).toList
      (g.feed t) outer := by
  cases t with
  | lam binder body => exact h.enclosed g outer
  | _ =>
    obtain ⟨g', hreads, _, hfeed⟩ := h g outer hg
    rw [hfeed rfl] at hreads
    exact hreads

theorem readIn_pretty {t : Term} {s : String} (h : t.pretty = .ok s)
    (hnames : ∀ n ∈ t.labels, Plain n) : ReadIn t s := by
  induction t generalizing s with
  | var name =>
    rw [Term.pretty_var] at h
    cases h
    intro g outer hg
    have hname : Plain name := hnames name List.mem_cons_self
    refine ⟨_, reads_name hname g outer, ?_, fun _ => rfl⟩
    rw [Group.term, Group.feed, hg]
    rfl
  | lam binder body ih =>
    rw [Term.pretty_lam] at h
    obtain ⟨text, hbody, h⟩ := bind_eq_ok_iff.1 h
    cases h
    rw [Term.labels, List.forall_mem_cons] at hnames
    intro g outer hg
    obtain ⟨g', hreads, hterm, _⟩ := ih hbody hnames.2 (g.under binder) outer hg
    refine ⟨g', ?_, hterm, fun hvalue => absurd hvalue.symm Bool.false_ne_true⟩
    have habstraction := hreads.abstraction hnames.1 hg
    simpa using habstraction
  | app func arg ihf iha =>
    rw [Term.pretty_app] at h
    obtain ⟨funcText, hfunc, h⟩ := bind_eq_ok_iff.1 h
    obtain ⟨argText, harg, h⟩ := bind_eq_ok_iff.1 h
    cases h
    rw [Term.labels, List.forall_mem_append] at hnames
    intro g outer hg
    have hreadFunc := (ihf hfunc hnames.1).asFunc hg outer arg
    have hreadArg : Reads (.before (g.feed func) outer)
        (Term.nested argText arg.precedence (Term.app func arg).precedence false).toList
        ((g.feed func).feed arg) outer := by
      cases arg with
      | var name =>
        rw [Term.pretty_var] at harg
        cases harg
        exact reads_name (hnames.2 _ List.mem_cons_self) _ outer
      | lam binder body => exact (iha harg hnames.2).enclosed _ outer
      | app func arg => exact (iha harg hnames.2).enclosed _ outer
      | foreign leaf =>
        rw [Term.pretty_foreign] at harg
        cases harg
    have hfeed : (g.feed func).feed arg = g.feed (.app func arg) := by
      simp [Group.feed, hg]
    refine ⟨(g.feed func).feed arg, ?_, ?_, fun _ => hfeed⟩
    · have happlication := hreadFunc.application hreadArg
      simpa using happlication
    · rw [hfeed, Group.term, Group.feed, hg]
      rfl
  | foreign leaf =>
    rw [Term.pretty_foreign] at h
    cases h

theorem read_pretty {t : Term} {s : String} (h : t.pretty = .ok s)
    (hnames : ∀ n ∈ t.labels, Plain n) : read s = some t := by
  obtain ⟨g, ⟨r, hr, hsettled, houter⟩, hterm, _⟩ := readIn_pretty h hnames .empty [] rfl
  rw [read, hr]
  simp only [Option.bind_eq_bind, Option.bind_some, houter, hsettled]
  exact hterm

end UntypedLambda.Notation

namespace UntypedLambda.Term

variable {t : Term}

theorem exists_pretty_of_plain (h : t.foreignLeaves = []) : ∃ s, t.pretty = .ok s := by
  induction t with
  | var name => exact ⟨name, pretty_var name⟩
  | lam binder body ih =>
    obtain ⟨text, hbody⟩ := ih h
    rw [pretty_lam, hbody]
    exact ⟨_, rfl⟩
  | app func arg ihf iha =>
    obtain ⟨hfunc, harg⟩ := List.append_eq_nil_iff.1 h
    obtain ⟨funcText, hfuncText⟩ := ihf hfunc
    obtain ⟨argText, hargText⟩ := iha harg
    rw [pretty_app, hfuncText, hargText]
    exact ⟨_, rfl⟩
  | foreign leaf => cases h

theorem pretty_of_foreign {leaf : Foreign} {others : List Foreign}
    (h : t.foreignLeaves = leaf :: others) : t.pretty = .error (.stray .printing leaf) := by
  induction t generalizing others with
  | var name => cases h
  | lam binder body ih =>
    rw [pretty_lam, ih h]
    rfl
  | app func arg ihf iha =>
    rw [foreignLeaves] at h
    rw [pretty_app]
    cases hfunc : func.foreignLeaves with
    | nil =>
      rw [hfunc, List.nil_append] at h
      obtain ⟨funcText, hfuncText⟩ := exists_pretty_of_plain hfunc
      rw [hfuncText, iha h]
      rfl
    | cons leaf' others' =>
      rw [hfunc, List.cons_append] at h
      cases h
      rw [ihf hfunc]
      rfl
  | foreign leaf =>
    cases h
    exact pretty_foreign leaf

/-- Terms whose names hold no sign are read back from their texts, so no two of them have the same;
printing fails exactly at the first foreign leaf. -/
theorem pretty_unambiguous (t u : Term) :
    (∀ fault, t.pretty = .error fault ↔
      ∃ leaf, t.foreignLeaves.head? = some leaf ∧ fault = .stray .printing leaf) ∧
    (t.foreignLeaves = [] → (∀ n ∈ t.labels, Notation.Plain n) →
      ∃ s, t.pretty = .ok s ∧ Notation.read s = some t) ∧
    (t.foreignLeaves = [] → u.foreignLeaves = [] → (∀ n ∈ t.labels, Notation.Plain n) →
      (∀ n ∈ u.labels, Notation.Plain n) → t.pretty = u.pretty → t = u) := by
  refine ⟨?_, ?_, ?_⟩
  · intro fault
    cases hleaves : t.foreignLeaves with
    | nil =>
      obtain ⟨s, hs⟩ := exists_pretty_of_plain hleaves
      simp [hs]
    | cons leaf others => simp [pretty_of_foreign hleaves, eq_comm]
  · intro hplain hnames
    obtain ⟨s, hs⟩ := exists_pretty_of_plain hplain
    exact ⟨s, hs, Notation.read_pretty hs hnames⟩
  · intro htplain huplain htnames hunames hsame
    obtain ⟨s, hs⟩ := exists_pretty_of_plain htplain
    have hu : u.pretty = .ok s := hsame ▸ hs
    apply Option.some.inj
    rw [← Notation.read_pretty hs htnames, ← Notation.read_pretty hu hunames]

/-- Parentheses tell apart what an application and an abstraction reach. -/
theorem pretty_unambiguous_nested :
    (app (lam "x" (var "x")) (app (var "y") (var "z"))).pretty ≠
        (lam "x" (app (app (var "x") (var "y")) (var "z"))).pretty ∧
      ∃ s, (app (lam "x" (var "x")) (app (var "y") (var "z"))).pretty = .ok s ∧
        Notation.read s = some (app (lam "x" (var "x")) (app (var "y") (var "z"))) := by
  obtain ⟨_, hread, hinjective⟩ := pretty_unambiguous
    (app (lam "x" (var "x")) (app (var "y") (var "z")))
    (lam "x" (app (app (var "x") (var "y")) (var "z")))
  refine ⟨fun hsame => ?_, hread rfl (by decide)⟩
  cases hinjective rfl rfl (by decide) (by decide) hsame

end UntypedLambda.Term

import Scriptlet.Proofs.LexicalWalk
import Scriptlet.Proofs.This

namespace Scriptlet

/-!
# Variables that are read in their own initializers

* `Node.Initialized` — a local variable with an initializer; `Node.SelfRead` — a name in the
  initializer that means the variable; `Node.InLiteral` — it stands in a function literal.
* `Node.EarlyRead` — the first name that means the variable is outside of function literals.
* `Walk.Snap.inOwnInitializer_iff` — these are the names that the walk takes to be read too early.
* `Resolution.self_reads_reported_iff_first_is_direct` — these are the ones that are reported.
-/

namespace Node

/-! ### Initializers -/

/-- A path inside of the initializer of the variable at `r` is inside of a function literal. -/
def InLiteral (root : Node) (r p : Path) : Prop :=
  ∃ (f : Path) (decl : FunDecl), r ++ [0] <+: f ∧ f <+: p ∧
    root.at? f = some (.expr (.function decl))

/-- At `r`, the variable `x` is declared in the scope of `q`, with an initializer. -/
def Initialized (root : Node) (q r : Path) (x : String) : Prop :=
  ∃ name e, root.at? r = some (.stmt (.varDecl name (some e))) ∧ name.lexeme = x ∧
    (root.scopesAt r).head? = some q

/-- A variable node with the name `x`. -/
def Names (root : Node) (p : Path) (x : String) : Prop :=
  ∃ id name, root.at? p = some (.expr (.variable id name)) ∧ name.lexeme = x

/-- The node at `p` is a name in the initializer of the local variable at `r`, and means this
    variable. -/
structure SelfRead (root : Node) (q r : Path) (x : String) (p : Path) : Prop where
  owner : root.Initialized q r x
  inside : r ++ [0] <+: p
  names : root.Names p x
  means : root.Means p x q r

/-- The node at `p` is the first one that means the variable in whose initializer it stands, and is
    outside of the function literals there. -/
def EarlyRead (root : Node) (p : Path) : Prop :=
  ∃ q r x, root.SelfRead q r x p ∧ ¬ root.InLiteral r p ∧
    ∀ p', root.SelfRead q r x p' → ¬ p'.Before p

/-- An expression, or the arguments of a call. -/
def isExpression : Node → Bool
  | .expr _ => true
  | .exprs _ => true
  | _ => false

variable {root n m : Node} {p p' q r s : Path} {x : String}

/-- What is read too early is a node of the tree. -/
theorem EarlyRead.isSome_at? (h : root.EarlyRead p) : (root.at? p).isSome = true := by
  obtain ⟨q, r, x, hself, -⟩ := h
  obtain ⟨id, name, hp, -⟩ := hself.names
  rw [hp, Option.isSome_some]

/-- What is inside of something in a function literal is in the literal. -/
theorem InLiteral.mono (h : root.InLiteral r p) (hp : p <+: p') : root.InLiteral r p' := by
  obtain ⟨f, decl, hr, hf, hat⟩ := h
  exact ⟨f, decl, hr, hf.trans hp, hat⟩

/-- The parts of an expression are expressions, unless it is a function literal. -/
theorem isExpression_of_mem_children (hn : n.isExpression = true)
    (hliteral : ∀ decl, n ≠ .expr (.function decl)) (hm : m ∈ n.children) :
    m.isExpression = true := by
  cases n with
  | expr e =>
    cases e with
    | function decl => exact absurd rfl (hliteral decl)
    | literal | «variable» | thisRef => cases hm
    | group | assign | unary | get =>
      cases List.mem_singleton.1 hm
      rfl
    | binary | logical | call | set => obtain rfl | rfl := List.mem_pair.1 hm <;> rfl
    | conditional =>
      obtain rfl | hm := List.mem_cons.1 hm
      · rfl
      · obtain rfl | rfl := List.mem_pair.1 hm <;> rfl
  | exprs es =>
    cases es with
    | nil => cases hm
    | cons e es => obtain rfl | rfl := List.mem_pair.1 hm <;> rfl
  | stmt | stmts | function | functions => cases hn

/-- Expressions have no scope of their own: a function literal leaves that to its function. -/
theorem opensScope_eq_false_of_isExpression (hn : n.isExpression = true) :
    n.opensScope = false := by
  cases n with
  | expr | exprs => rfl
  | stmt | stmts | function | functions => cases hn

/-- An initializer has scopes of its own only in function literals. -/
theorem scopesAt_eq_of_not_inLiteral {name : Token} {e : Option Expr}
    (hr : root.at? r = some (.stmt (.varDecl name e))) (s : Path)
    (hp : root.at? (r ++ [0] ++ s) = some n) (h : ¬ root.InLiteral r (r ++ [0] ++ s)) :
    n.isExpression = true ∧ root.scopesAt (r ++ [0] ++ s) = root.scopesAt r := by
  -- Induction on the way into the initializer, which leads from one expression to another.
  induction s using List.reverseRecOn generalizing n with
  | nil =>
    rw [List.append_nil] at hp ⊢
    rw [at?_concat, hr] at hp
    refine ⟨?_, scopesAt_concat hr 0⟩
    cases e with
    | none => cases hp
    | some e =>
      cases hp
      rfl
  | append_singleton s i ih =>
    rw [← List.append_assoc] at hp h ⊢
    rw [at?_concat] at hp
    obtain ⟨m, hm, hn⟩ := Option.bind_eq_some_iff.1 hp
    have hout : ¬ root.InLiteral r (r ++ [0] ++ s) :=
      fun hin => h (hin.mono (List.prefix_append _ _))
    obtain ⟨hexpression, hscopes⟩ := ih hm hout
    refine ⟨isExpression_of_mem_children hexpression ?_ (List.mem_of_getElem? hn), ?_⟩
    · rintro decl rfl
      exact hout ⟨_, decl, List.prefix_append _ _, List.prefix_refl _, hm⟩
    · rw [scopesAt_concat hm, opensScope_eq_false_of_isExpression hexpression, ← hscopes]
      rfl

/-- The innermost of the scopes around a path is inside of all the others. -/
theorem prefix_of_head?_scopesAt (hq : (root.scopesAt p).head? = some q)
    (hs : s ∈ root.scopesAt p) : s <+: q := by
  unfold scopesAt at hq hs
  induction p using List.reverseRecOn with
  | nil => cases hs
  | append_singleton p i ih =>
    rw [Path.above_concat, List.filter_cons] at hq hs
    split at hq
    · next hopens =>
      rw [if_pos hopens] at hs
      cases hq
      obtain rfl | hs := List.mem_cons.1 hs
      · exact List.prefix_refl s
      · exact (Path.mem_above_iff.1 (List.mem_of_mem_filter hs)).1
    · next hopens =>
      rw [if_neg hopens] at hs
      exact ih hq hs

/-- What is inside of a function literal is not in the scope of the variable. -/
theorem head?_scopesAt_ne_of_inLiteral (hp : root.at? p = some n)
    (hliteral : ∀ decl, n ≠ .expr (.function decl))
    (hfunction : ∀ kind decl, n ≠ .function kind decl)
    (h : root.InLiteral r p) (hq : (root.scopesAt r).head? = some q) :
    (root.scopesAt p).head? ≠ some q := by
  obtain ⟨f, decl, hr, ⟨s, rfl⟩, hf⟩ := h
  intro hhead
  -- The way goes on from the literal to its body, and from there into it.
  cases s with
  | nil =>
    rw [List.append_nil, hf] at hp
    exact hliteral decl (Option.some.inj hp).symm
  | cons i s =>
    have hi : f ++ [i] <+: f ++ i :: s := ⟨s, by simp⟩
    obtain ⟨c, hc⟩ := getElem?_children_of_prefix hp hi hf
    have hbody : root.at? (f ++ [i]) = some (.function .function decl) := by
      rw [at?_concat, hf]
      cases i with
      | zero => rfl
      | succ i => cases hc
    have hmem : f ++ [i] ∈ root.scopesAt (f ++ i :: s) := by
      refine List.mem_filter.2 ⟨Path.mem_above_iff.2 ⟨hi, fun heq => ?_⟩, ?_⟩
      · rw [← heq, hbody] at hp
        exact hfunction _ _ (Option.some.inj hp).symm
      · rw [hbody]
        rfl
    -- The scope of the variable is further out than the variable.
    have hout := (Path.mem_above_iff.1 (mem_above_of_mem_scopesAt
      (List.mem_of_mem_head? hq))).1.length_le
    have hin := (prefix_of_head?_scopesAt hhead hmem).length_le
    have hrf := hr.length_le
    simp only [List.length_append, List.length_singleton] at hin hrf
    omega

/-- What is inside of a variable is inside of its initializer. -/
theorem inside_initializer {name : Token} {e : Option Expr}
    (hr : root.at? r = some (.stmt (.varDecl name e))) (hp : root.at? p = some n)
    (hway : r <+: p) (hne : r ≠ p) : r ++ [0] <+: p ∧ e.isSome = true := by
  obtain ⟨s, rfl⟩ := hway
  cases s with
  | nil => exact absurd (List.append_nil r).symm hne
  | cons i s =>
    have hi : r ++ [i] <+: r ++ i :: s := ⟨s, by simp⟩
    obtain ⟨c, hc⟩ := getElem?_children_of_prefix hp hi hr
    cases e with
    | none => cases hc
    | some e =>
      cases i with
      | zero => exact ⟨hi, rfl⟩
      | succ i => cases hc

/-- A name means one declaration, in one scope. -/
theorem Means.unique {q' r' : Path} (h : root.Means p x q r) (h' : root.Means p x q' r') :
    q = q' ∧ r = r' := by
  obtain ⟨k, hk⟩ := h.home
  obtain ⟨k', hk'⟩ := h'.home
  obtain rfl := hk.unique hk'
  obtain rfl := Option.some.inj (hk.scope.symm.trans hk'.scope)
  exact ⟨rfl, h.latest.unique h'.latest⟩

/-- An initializer declares nothing in the scope of the variable, so all the way through it the
    variable is the last declaration there. -/
theorem Initialized.latest (h : root.Initialized q r x) (hp : root.at? p = some n)
    (hinside : r ++ [0] <+: p) : root.Latest q p x r := by
  obtain ⟨name, e, hr, rfl, hhead⟩ := h
  have hbefore : r.Before p := by
    obtain ⟨s, rfl⟩ := hinside
    rw [List.append_assoc]
    exact Path.before_append r 0 s
  refine ⟨.inside hr rfl rfl hhead, hbefore, fun r' hr' hbefore' hlater => ?_⟩
  have hqr := before_of_mem_scopesAt (List.mem_of_mem_head? hhead)
  have hne : r' ≠ q := (hqr.trans hlater).ne.symm
  obtain ⟨m, hm⟩ := Option.isSome_iff_exists.1 hr'.isSome_at?
  obtain ⟨token, hdeclared, -⟩ := hr'.declared hne hm
  have hway := Path.prefix_of_before_of_before hlater hbefore'
    ((List.prefix_append r [0]).trans hinside)
  obtain ⟨s, rfl⟩ := (inside_initializer hr hm hway hlater.ne).1
  -- Declarations are no expressions, and those in function literals belong to other scopes.
  by_cases hliteral : root.InLiteral r (r ++ [0] ++ s)
  · refine head?_scopesAt_ne_of_inLiteral hm ?_ ?_ hliteral hhead (hr'.head?_eq hne)
    · rintro decl rfl
      cases hdeclared
    · rintro kind decl rfl
      cases hdeclared
  · have hexpression := (scopesAt_eq_of_not_inLiteral hr s hm hliteral).1
    cases m with
    | stmt => cases hexpression
    | _ => cases hdeclared

/-- A name in the initializer whose innermost scope is that of the variable means the variable, and
    no function literal is in between. -/
theorem Initialized.selfRead (h : root.Initialized q r x) (hinside : r ++ [0] <+: p)
    (hnames : root.Names p x) (hq : (root.scopesAt p).head? = some q) :
    root.SelfRead q r x p ∧ ¬ root.InLiteral r p := by
  obtain ⟨id, name, hp, rfl⟩ := hnames
  have hlatest := h.latest hp hinside
  have hresolves : root.Resolves p name.lexeme 0 q := by
    rw [List.head?_eq_getElem?] at hq
    exact ⟨hq, ⟨r, hlatest.declares, hlatest.before⟩, fun j hj => absurd hj (Nat.not_lt_zero j)⟩
  refine ⟨⟨h, hinside, ⟨id, name, hp, rfl⟩, ⟨0, hresolves⟩, hlatest⟩, fun hliteral => ?_⟩
  obtain ⟨token, e, hr, -, hhead⟩ := h
  exact head?_scopesAt_ne_of_inLiteral hp nofun nofun hliteral hhead hq

/-! ### Names and `this` -/

section

variable (hroot : root.Formed Token.Spelled)
include hroot

/-- A name is not the word `this`. -/
theorem Names.ne_this (h : root.Names p x) : x ≠ "this" := by
  obtain ⟨id, name, hp, rfl⟩ := h
  exact Token.IsName.ne_this (hroot.at? hp)

/-- Only variable nodes read other names than `this`. -/
theorem Reads.names (h : root.Reads p x) (hx : x ≠ "this") : root.Names p x := by
  cases h with
  | name hp => exact ⟨_, _, hp, rfl⟩
  | @this id keyword hp =>
    obtain ⟨hspelled, s, hs, his⟩ := hroot.at? hp
    cases List.mem_singleton.1 hs
    exact absurd (hspelled.lexeme_of_is his) hx

end

/-- A name that stands in a program is read there. -/
theorem Names.reads (h : root.Names p x) : root.Reads p x := by
  obtain ⟨id, name, hp, rfl⟩ := h
  exact .name hp

/-! ### Names that are read too early -/

/-- The innermost scope takes the name for one that is in its own initializer. -/
def Unsettled (root : Node) (p : Path) (x : String) : Prop :=
  ∃ q r, (root.scopesAt p).head? = some q ∧ root.Latest q p x r ∧ ¬ root.WasRead q p x r ∧
    root.InProgress r p

/-- Where a variable is declared in the innermost scope and not read yet, a name that means it is
    the first one, and no function literal is in between. -/
theorem Unsettled.earlyRead (h : root.Unsettled p x) (hnames : root.Names p x) :
    root.EarlyRead p := by
  obtain ⟨q, r, hq, hlatest, hunread, hvar, habove⟩ := h
  obtain ⟨hway, hne⟩ := Path.mem_above_iff.1 habove
  obtain ⟨id, name, hp, hname⟩ := hnames
  obtain ⟨n, hr, hn⟩ := (Option.any_eq_true _ _).1 hvar
  obtain ⟨token, e, rfl⟩ : ∃ token e, n = .stmt (.varDecl token e) := by
    unfold isVarDecl at hn
    split at hn
    · exact ⟨_, _, rfl⟩
    · cases hn
  obtain ⟨hinside, hsome⟩ := inside_initializer hr hp hway hne
  obtain ⟨e, rfl⟩ := Option.isSome_iff_exists.1 hsome
  -- The variable is not what opened the scope.
  have hrq : r ≠ q := by
    rintro rfl
    have hopens := (List.mem_filter.1 (List.mem_of_mem_head? hq)).2
    rw [hr] at hopens
    cases hopens
  obtain ⟨token', htoken, hlexeme⟩ := hlatest.declares.declared hrq hr
  cases htoken
  have howner : root.Initialized q r x := ⟨token, e, hr, hlexeme, hlatest.declares.head?_eq hrq⟩
  obtain ⟨hself, hliteral⟩ := howner.selfRead hinside ⟨id, name, hp, hname⟩ hq
  refine ⟨q, r, x, hself, hliteral, fun p' hp' hbefore => ?_⟩
  exact hunread (.inr ⟨p', hbefore, hp'.names.reads, hp'.means⟩)

/-- The converse of `Unsettled.earlyRead`: in front of the first name that means a variable, nothing
    has read it. -/
theorem EarlyRead.unsettled (hroot : root.Formed Token.Spelled) (h : root.EarlyRead p)
    (hnames : root.Names p x) : root.Unsettled p x := by
  obtain ⟨q, r, y, hself, hliteral, hfirst⟩ := h
  obtain ⟨token, e, hr, hlexeme, hhead⟩ := hself.owner
  obtain rfl : x = y := by
    obtain ⟨id, name, hp, rfl⟩ := hnames
    obtain ⟨id', name', hp', rfl⟩ := hself.names
    cases hp.symm.trans hp'
    rfl
  obtain ⟨s, hs⟩ := hself.inside
  obtain ⟨id, name, hp, -⟩ := hnames
  -- The name is in no function literal, so it is in the scope of the variable.
  have hscopes : root.scopesAt p = root.scopesAt r := by
    subst hs
    exact (scopesAt_eq_of_not_inLiteral hr s hp hliteral).2
  have hvar : (root.at? r).any isVarDecl = true := by
    rw [hr]
    rfl
  have habove : r ∈ p.above := by
    refine Path.mem_above_iff.2 ⟨(List.prefix_append r [0]).trans hself.inside, ?_⟩
    rintro rfl
    cases hp.symm.trans hr
  refine ⟨q, r, by rw [hscopes]; exact hhead, hself.means.latest, ?_, hvar, habove⟩
  rintro (⟨rfl, hclass⟩ | ⟨p', hbefore, hreads, hmeans⟩)
  · rw [hr] at hclass
    cases hclass
  · -- A name in front of this one that means the variable is in its initializer, too.
    have hnames' := hreads.names hroot (hself.names.ne_this hroot)
    obtain ⟨m, hp'⟩ := Option.isSome_iff_exists.1 hreads.isSome_at?
    have hway := Path.prefix_of_before_of_before hmeans.latest.before hbefore
      (Path.mem_above_iff.1 habove).1
    obtain ⟨hinside, -⟩ := inside_initializer hr hp' hway hmeans.latest.before.ne
    exact hfirst p' ⟨hself.owner, hinside, hnames', hmeans⟩ hbefore

end Node

/-- The walk takes a name for one in its own initializer exactly where the tree tells so. -/
theorem Walk.Snap.inOwnInitializer_iff {root : Node} {p : Path} {w : Walk} {x : String}
    (hw : w.Snap root p) : w.inOwnInitializer x = true ↔ root.Unsettled p x := by
  have hscopes := hw.scopes
  unfold Walk.inOwnInitializer Node.Unsettled
  generalize root.scopesAt p = qs at hscopes ⊢
  generalize w.scopes = scopes at hscopes ⊢
  cases hscopes with
  | nil => simp
  | @cons q scope qs scopes htells =>
    simp only [List.head?_cons, Option.some.injEq]
    have htells := htells x
    generalize scope[x]? = found at htells ⊢
    cases htells with
    | unknown hnot =>
      refine ⟨nofun, ?_⟩
      rintro ⟨_, r, rfl, hlatest, -⟩
      exact absurd ⟨r, hlatest.declares, hlatest.before⟩ hnot
    | @known r binding hr hused =>
      rw [decide_eq_true_eq]
      constructor
      · intro husage
        rw [husage] at hused
        exact ⟨q, r, rfl, hr, hused⟩
      -- The last declaration of a name is the one that the scope holds.
      · rintro ⟨_, r', rfl, hr', hunread, hprogress⟩
        obtain rfl := hr.unique hr'
        cases husage : binding.usage with
        | declared => rfl
        | read =>
          rw [husage] at hused
          exact absurd hused hunread
        | defined =>
          rw [husage] at hused
          exact absurd hprogress hused.2

/-! ### What is reported -/

/-- The name that is said to be read in its own initializer. -/
def Error.selfRead? : Error → Option Token
  | .scope name .readInOwnInitializer => some name
  | _ => none

/-- The names that are said to be read in their own initializers, in the order of the report. -/
def Report.selfReads (report : Report) : List Token :=
  report.errors.toList.filterMap Error.selfRead?

/-- One more error, which counts if it is of that kind. -/
theorem Report.selfReads_add (report : Report) (e : Error) :
    (report.add e).selfReads = report.selfReads ++ e.selfRead?.toList := by
  unfold Report.selfReads Report.add
  rw [Array.toList_push, List.filterMap_append]
  cases h : e.selfRead? <;> simp [h]

namespace Walk

variable {w : Walk}

/-- `Report.selfReads_add` for the faults of the walk. -/
theorem selfReads_complain (w : Walk) (t : Token) (f : ScopeFault) :
    (w.complain t f).report.selfReads = w.report.selfReads ++ (Error.scope t f).selfRead?.toList :=
  w.report.selfReads_add _

/-- Other faults do not count. -/
theorem selfReads_complain_of_eq_none {t : Token} {f : ScopeFault}
    (h : (Error.scope t f).selfRead? = none) (w : Walk) :
    (w.complain t f).report.selfReads = w.report.selfReads := by
  rw [selfReads_complain, h]
  exact List.append_nil _

/-- `selfReads_complain_of_eq_none`, if the fault is reported at all. -/
theorem selfReads_ite {c : Prop} [Decidable c] {t : Token} {f : ScopeFault}
    (h : (Error.scope t f).selfRead? = none) (w : Walk) :
    (if c then w.complain t f else w).report.selfReads = w.report.selfReads := by
  split
  · exact selfReads_complain_of_eq_none h w
  · rfl

/-- What is reported at the end of a scope are names that nothing reads. -/
theorem selfReads_closeScope (w : Walk) :
    w.closeScope.report.selfReads = w.report.selfReads := by
  cases h : w.scopes with
  | nil =>
    unfold closeScope
    rw [h]
  | cons scope outer =>
    unfold Report.selfReads
    rw [errors_closeScope h, List.filterMap_append]
    simp [Error.selfRead?]

/-- A name that is declared twice is no self-read. -/
theorem selfReads_declare (w : Walk) (name : Token) :
    (w.declare name).report.selfReads = w.report.selfReads := by
  unfold declare
  split
  · rfl
  · exact selfReads_ite rfl w

/-- `selfReads_declare`, with a silent `define` behind it. -/
theorem selfReads_introduce (w : Walk) (name : Token) :
    (w.introduce name).report.selfReads = w.report.selfReads := by
  unfold introduce
  rw [report_define, selfReads_declare]

/-- `selfReads_introduce` for all parameters of a function. -/
theorem selfReads_foldl_introduce (names : List Token) (w : Walk) :
    (names.foldl introduce w).report.selfReads = w.report.selfReads := by
  induction names generalizing w with
  | nil => rfl
  | cons name names ih => rw [List.foldl_cons, ih, selfReads_introduce]

/-- A `return` in the wrong place is no self-read. -/
theorem selfReads_checkReturn (w : Walk) (t : Token) (b : Bool) :
    (w.checkReturn t b).report.selfReads = w.report.selfReads :=
  (selfReads_ite rfl _).trans (selfReads_ite rfl w)

/-- The name that is said to be read too early at a part of a tree. -/
def tooEarly (w : Walk) : Node → List Token
  | .expr (.variable _ name) => if w.inOwnInitializer name.lexeme then [name] else []
  | _ => []

/-- Names are said to be read too early where they are read, and nowhere else. -/
theorem selfReads_enter (n : Node) (w : Walk) :
    (w.enter n).report.selfReads = w.report.selfReads ++ w.tooEarly n := by
  have hnothing {w' : Walk} (h : w'.report.selfReads = w.report.selfReads) :
      w'.report.selfReads = w.report.selfReads ++ [] := h.trans (List.append_nil _).symm
  cases n with
  | expr e =>
    cases e with
    | «variable» id name =>
      show (Walk.read (if _ then _ else _) id name).report.selfReads =
        _ ++ if w.inOwnInitializer name.lexeme = true then [name] else []
      rw [report_read]
      split
      · exact selfReads_complain w name .readInOwnInitializer
      · exact (List.append_nil _).symm
    | thisRef id keyword =>
      refine hnothing ?_
      show (if w.inClass = true then w.read id keyword else _).report.selfReads = _
      -- A `this` outside of a class is reported, but not as one that is read early.
      split
      · rw [report_read]
      · exact selfReads_complain_of_eq_none rfl w
    | _ => exact hnothing rfl
  | stmt s =>
    cases s with
    | varDecl name e => exact hnothing (selfReads_declare w name)
    | funDecl decl =>
      refine hnothing ?_
      show (w.nameFunction decl).report.selfReads = _
      unfold nameFunction
      split
      · exact selfReads_introduce w _
      · rfl
    | ret keyword e => exact hnothing (selfReads_checkReturn w keyword _)
    | classDecl name methods =>
      exact hnothing (selfReads_introduce { w with inClass := true } name)
    | _ => exact hnothing rfl
  | function kind decl => exact hnothing (selfReads_foldl_introduce _ _)
  | _ => exact hnothing rfl

/-- No name is read when the walk leaves a part. -/
theorem selfReads_leave (start : Walk) (n : Node) (w : Walk) :
    (leave start n w).report.selfReads = w.report.selfReads := by
  cases n with
  | expr e =>
    cases e with
    | assign id name e => exact congrArg Report.selfReads (report_refer w id name)
    | _ => rfl
  | stmt s =>
    cases s with
    | varDecl name e => exact congrArg Report.selfReads (report_define w name)
    | block | classDecl => exact selfReads_closeScope w
    | _ => rfl
  | function kind decl => exact selfReads_closeScope w
  | _ => rfl

end Walk

/-! ### Along the walk -/

/-- The variable that a node reads. -/
def Node.nameAt? (root : Node) (p : Path) : Option Token :=
  ((root.at? p).bind Node.readName?).map Prod.snd

/-- Paths in the order of the walk, namely those in front of `b` that satisfy `P`. -/
structure Path.Listed (P : Path → Prop) (b : Path) (ps : List Path) : Prop where
  ordered : ps.Pairwise Path.Before
  mem_iff : ∀ p, p ∈ ps ↔ p.Before b ∧ P p

namespace Path.Listed

variable {P : Path → Prop} {b b' p : Path} {ps : List Path}

/-- In front of the whole tree there is no path. -/
theorem nil (P : Path → Prop) : Path.Listed P [] [] :=
  ⟨.nil, fun p => ⟨fun h => absurd h List.not_mem_nil, fun h => absurd h.1 (Path.not_before_nil p)⟩⟩

/-- Between two places that have the same of the paths in front, nothing counts. -/
theorem congr (h : Path.Listed P b ps) (hb : ∀ p, P p → (p.Before b' ↔ p.Before b)) :
    Path.Listed P b' ps :=
  ⟨h.ordered, fun p => (h.mem_iff p).trans (and_congr_left fun hp => (hb p hp).symm)⟩

/-- The next path, if it counts. -/
theorem concat_zero (h : Path.Listed P p ps) (hp : P p) :
    Path.Listed P (p ++ [0]) (ps ++ [p]) := by
  refine ⟨List.pairwise_append.2 ⟨h.ordered, List.pairwise_singleton _ _, fun p' hp' q hq => ?_⟩,
    fun p' => ?_⟩
  · cases List.mem_singleton.1 hq
    exact ((h.mem_iff p').1 hp').1
  · rw [List.mem_append, List.mem_singleton, h.mem_iff, Path.before_concat_zero, or_and_right]
    refine or_congr_right ⟨?_, And.left⟩
    rintro rfl
    exact ⟨rfl, hp⟩

end Path.Listed

/-- So far, the names that were said to be read too early are those that are. -/
def Walk.Blames (root : Node) (old : List Token) (b : Path) (w : Walk) : Prop :=
  ∃ ps, Path.Listed root.EarlyRead b ps ∧
    w.report.selfReads = old ++ ps.filterMap root.nameAt?

/-- **Names that are read too early are reported**, in their order. -/
theorem Walk.along_blames {root : Node} (hroot : root.Formed Token.Spelled) (old : List Token) :
    Walk.Along root fun p w => w.Snap root p ∧ w.Blames root old p := by
  constructor
  · rintro p n w hp ⟨hw, ps, hps, hreads⟩
    refine ⟨hw.enter hp, ?_⟩
    have hother (h : w.tooEarly n = []) (hnot : ¬ root.EarlyRead p) :
        (w.enter n).Blames root old (p ++ [0]) := by
      refine ⟨ps, hps.congr fun p' hp' => ?_, ?_⟩
      · rw [Path.before_concat_zero]
        refine or_iff_left ?_
        rintro rfl
        exact hnot hp'
      · rw [Walk.selfReads_enter, h, List.append_nil, hreads]
    -- Only variable nodes are read too early, and the walk asks for the rest.
    by_cases hvariable : ∃ id name, n = .expr (.variable id name)
    · obtain ⟨id, name, rfl⟩ := hvariable
      have hnames : root.Names p name.lexeme := ⟨id, name, hp, rfl⟩
      by_cases hown : w.inOwnInitializer name.lexeme = true
      · have hearly := (hw.inOwnInitializer_iff.1 hown).earlyRead hnames
        refine ⟨ps ++ [p], hps.concat_zero hearly, ?_⟩
        have hname : root.nameAt? p = some name := by
          unfold Node.nameAt?
          rw [hp]
          rfl
        rw [Walk.selfReads_enter, Walk.tooEarly, if_pos hown, hreads, List.filterMap_append,
          List.append_assoc, List.filterMap_cons_some hname, List.filterMap_nil]
      · exact hother (if_neg hown) fun h =>
          hown (hw.inOwnInitializer_iff.2 (h.unsettled hroot hnames))
    · refine hother ?_ fun h => ?_
      · unfold Walk.tooEarly
        split
        · exact absurd ⟨_, _, rfl⟩ hvariable
        · rfl
      · obtain ⟨q, r, x, hself, -⟩ := h
        obtain ⟨id, name, hp', -⟩ := hself.names
        cases hp.symm.trans hp'
        exact hvariable ⟨id, name, rfl⟩
  · rintro p i n start w hp ⟨hstart, -⟩ ⟨hw, ps, hps, hreads⟩
    refine ⟨hstart.leave hp hw, ps, ?_, ?_⟩
    · exact hps.congr fun p' hp' => Node.before_succ_iff hp hp'.isSome_at?
    · rw [Walk.selfReads_leave, hreads]

/-- **Which self-reads are reported.** Of all names in the initializer of a local variable that mean
    the variable, only the first is reported, and only if it is outside of function literals. So one
    that is outside is missed if the first one is inside. -/
theorem Resolution.self_reads_reported_iff_first_is_direct (source : String) (nextNode : NodeId)
    (report report' : Report) (depths : Depths) :
    let program := (Program.parse (Token.ofSource source) nextNode report).statements
    let root := Node.stmts program
    ∃ ps : List Path, ps.Pairwise Path.Before ∧
      (Resolution.resolve program depths report').2.selfReads =
        report'.selfReads ++ ps.filterMap root.nameAt? ∧
      (∀ p, p ∈ ps ↔ root.EarlyRead p) ∧
      ∀ q r x, (∃ p ∈ ps, root.SelfRead q r x p) ↔
        ∃ p, root.SelfRead q r x p ∧ ¬ root.InLiteral r p ∧
          ∀ p', root.SelfRead q r x p' → ¬ p'.Before p := by
  intro program root
  have hroot : root.Formed Token.Spelled :=
    (Program.built_parse _ nextNode report (Token.spelled_ofSource source)).1
  obtain ⟨-, ps, hps, hreads⟩ := (Walk.along_blames hroot report'.selfReads).stmts
    (w := Resolution.start depths report')
    ⟨.start _ _ _, [], Path.Listed.nil _, (List.append_nil _).symm⟩
  have hmem : ∀ p, p ∈ ps ↔ root.EarlyRead p := by
    intro p
    rw [hps.mem_iff]
    refine and_iff_right_of_imp fun h => ?_
    exact (Node.before_concat_length (p := []) h.isSome_at? rfl).2 (.inr List.nil_prefix)
  refine ⟨ps, hps.ordered, hreads, hmem, fun q r x => ?_⟩
  constructor
  · -- A name means one variable only, so it is read too early in the initializer of this one.
    rintro ⟨p, hp, hself⟩
    obtain ⟨q', r', x', hself', hliteral, hfirst⟩ := (hmem p).1 hp
    obtain ⟨id, name, hat, rfl⟩ := hself.names
    obtain ⟨id', name', hat', rfl⟩ := hself'.names
    cases hat.symm.trans hat'
    obtain ⟨rfl, rfl⟩ := hself.means.unique hself'.means
    exact ⟨p, hself, hliteral, hfirst⟩
  · rintro ⟨p, hself, hliteral, hfirst⟩
    exact ⟨p, (hmem p).2 ⟨q, r, x, hself, hliteral, hfirst⟩, hself⟩

/-- A variable is read in its own initializer, first in a function literal and then outside. -/
def Resolution.selfReadBehindLiteral : String :=
  "\x7b var a = fun () \x7b return a; \x7d == a; \x7d"

/-- The variable that a node declares with an initializer. -/
def Node.initializedName? : Node → Option Token
  | .stmt (.varDecl name (some _)) => some name
  | _ => none

/-- The read outside of the literal is not reported, nor is anything else. -/
theorem Resolution.self_read_behind_literal_unreported :
    let program :=
      (Program.parse (Token.ofSource Resolution.selfReadBehindLiteral) 0 .empty).statements
    (∃ q r x p, (Node.stmts program).SelfRead q r x p ∧ ¬ (Node.stmts program).InLiteral r p) ∧
      (Resolution.resolve program ∅ .empty).2.hadError = false := by
  intro program
  have hvariable : (((Node.stmts program).at? [0, 0, 0]).bind Node.initializedName?).any
      (fun name => decide (name.lexeme = "a")) = true := by decide +kernel
  have hnames : (((Node.stmts program).at? [0, 0, 0, 0, 1]).bind Node.readName?).any
      (fun v => decide (v.2.lexeme = "a")) = true := by decide +kernel
  have hhead : ((Node.stmts program).scopesAt [0, 0, 0]).head? = some [0] := by decide +kernel
  have hinner : ((Node.stmts program).scopesAt [0, 0, 0, 0, 1]).head? = some [0] := by
    decide +kernel
  have haccepted : (Resolution.resolve program ∅ .empty).2.hadError = false := by decide +kernel
  refine ⟨⟨[0], [0, 0, 0], "a", [0, 0, 0, 0, 1], ?_⟩, haccepted⟩
  generalize program = program at hvariable hnames hhead hinner
  refine Node.Initialized.selfRead ?_ (by decide) ?_ hinner
  · obtain ⟨name, hv, hlexeme⟩ := (Option.any_eq_true _ _).1 hvariable
    obtain ⟨n, hn, hv⟩ := Option.bind_eq_some_iff.1 hv
    unfold Node.initializedName? at hv
    split at hv
    · cases hv
      exact ⟨_, _, hn, of_decide_eq_true hlexeme, hhead⟩
    · cases hv
  · obtain ⟨⟨id, name⟩, hv, hlexeme⟩ := (Option.any_eq_true _ _).1 hnames
    obtain ⟨n, hn, hv⟩ := Option.bind_eq_some_iff.1 hv
    exact ⟨id, name, Node.eq_of_readName? hv ▸ hn, of_decide_eq_true hlexeme⟩

end Scriptlet

import Scriptlet.Proofs.RenamingWalk
import Scriptlet.Proofs.SelfReads

namespace Scriptlet

/-!
# Well-scoped programs

The scoping rules, told by the tree alone, and that the walk reports nothing exactly if they are
kept.

* `Node.WellScoped` — the rules.
* `Node.Allowed`, `Node.Spent` — what the walk asks for in front of and behind the parts of a part
  of a tree.
* `Walk.Adds` — a step of the walk reports nothing exactly if some condition holds.
* `Resolution.silent_iff_wellScoped` — the walk over a program reports nothing exactly if the
  program is well scoped.
-/

namespace Node

/-! ### The rules -/

/-- The functions around a path, from the innermost out. -/
def functionsAt (root : Node) (p : Path) : List Path :=
  p.above.filter fun f => (root.at? f).any (·.bodyKind?.isSome)

/-- At `f` is the method of a class that is run on each new object. -/
def InitMethod (root : Node) (f : Path) : Prop :=
  ∃ (methods : Path) (decl : FunDecl) (rest : List FunDecl), f = methods ++ [0] ∧
    root.at? methods = some (.functions (decl :: rest)) ∧
    decl.label? = some FunDecl.initializerName

/-- The scoping rules. -/
structure WellScoped (root : Node) : Prop where
  /-- No scope declares a name twice. -/
  once : ∀ q x r r', root.Declares q x r → root.Declares q x r' → r = r'
  /-- The names of parameters are distinct. -/
  params : ∀ q kind decl, root.at? q = some (.function kind decl) →
    (decl.params.map Token.lexeme).Nodup
  /-- The first name in the initializer of a local variable that means the variable is in a function
      literal. -/
  initializers : ∀ q r x p, root.SelfRead q r x p →
    (∀ p', root.SelfRead q r x p' → ¬ p'.Before p) → root.InLiteral r p
  /-- A `return` stands in a function. -/
  returns : ∀ p keyword e, root.at? p = some (.stmt (.ret keyword e)) → root.functionsAt p ≠ []
  /-- A `return` with a value does not belong to the method that is run on each new object. -/
  values : ∀ p keyword e, root.at? p = some (.stmt (.ret keyword (some e))) →
    ∀ f, (root.functionsAt p).head? = some f → ¬ root.InitMethod f
  /-- `this` stands in a class. -/
  this : ∀ (p : Path) id keyword, root.at? p = some (.expr (.thisRef id keyword)) →
    ∃ q ∈ p.above, ∃ name methods, root.at? q = some (.stmt (.classDecl name methods))
  /-- Some name means each local variable, parameter, function and class. -/
  used : ∀ q x r, root.Declares q x r → x ≠ "this" → ∃ p, root.Names p x ∧ root.Means p x q r

/-! ### What the walk asks for -/

/-- The innermost scope does not have the name yet. -/
def New (root : Node) (p : Path) (name : Token) : Prop :=
  ∀ q, (root.scopesAt p).head? = some q → ¬ root.Holds q p name.lexeme

/-- What the walk asks for when it comes to a part of a tree. -/
def Allowed (root : Node) (p : Path) : Node → Prop
  | .expr (.variable _ _) => ¬ root.EarlyRead p
  | .expr (.thisRef _ _) => root.inClassAt p = true
  | .stmt (.varDecl name _) => root.New p name
  | .stmt (.funDecl decl) => ∀ name ∈ decl.name?, root.New p name
  | .stmt (.classDecl name _) => root.New p name
  | .stmt (.ret _ e) =>
    root.bodyAt p ≠ .topLevel ∧ (e.isSome = true → root.bodyAt p ≠ .initializer)
  | .function _ decl => (decl.params.map Token.lexeme).Nodup
  | _ => True

/-- What the walk asks for when it leaves a part of a tree: all names of its scope were read. -/
def Spent (root : Node) (p : Path) (n : Node) : Prop :=
  n.opensScope = true → ∀ x r, root.Latest p (p ++ [n.children.length]) x r →
    root.WasRead p (p ++ [n.children.length]) x r

end Node

/-! ### Steps and what keeps them silent -/

namespace Walk

/-- A step of the walk adds to the report, unless `P` holds. -/
def Adds (w w' : Walk) (P : Prop) : Prop :=
  ∃ es, w'.report.errors.toList = w.report.errors.toList ++ es ∧ (es = [] ↔ P)

variable {w w' w'' : Walk} {P Q : Prop} {name : Token}

/-- A step that leaves the report alone `Adds` nothing, so it fits any `P` that holds. -/
theorem Adds.of_eq (h : w'.report = w.report) (hP : P) : Adds w w' P :=
  ⟨[], by rw [h, List.append_nil], iff_of_true rfl hP⟩

/-- Steps in a row: the two together are silent exactly if both conditions hold. -/
theorem Adds.trans (h : Adds w w' P) (h' : Adds w' w'' Q) : Adds w w'' (P ∧ Q) := by
  obtain ⟨es, hes, hP⟩ := h
  obtain ⟨es', hes', hQ⟩ := h'
  refine ⟨es ++ es', by rw [hes', hes, List.append_assoc], ?_⟩
  rw [List.append_eq_nil_iff, hP, hQ]

/-- `Adds` for a condition that is told in other words. -/
theorem Adds.congr (h : Adds w w' P) (hPQ : P ↔ Q) : Adds w w' Q := by
  obtain ⟨es, hes, hP⟩ := h
  exact ⟨es, hes, hP.trans hPQ⟩

/-- The rest of the walk is of no account. -/
theorem Adds.of_report {v v' : Walk} (h : Adds w w' P) (hv : v.report = w.report)
    (hv' : v'.report = w'.report) : Adds v v' P := by
  obtain ⟨es, hes, hP⟩ := h
  exact ⟨es, by rw [hv, hv', hes], hP⟩

/-- What `Adds` is for: the report stays as it was exactly if `P` holds. -/
theorem Adds.report_eq_iff (h : Adds w w' P) : w'.report = w.report ↔ P := by
  obtain ⟨es, hes, hP⟩ := h
  rw [← hP]
  constructor
  · intro hreport
    rw [hreport] at hes
    exact List.self_eq_append_right.1 hes
  · rintro rfl
    rw [List.append_nil] at hes
    exact congrArg Report.mk (Array.toList_inj.1 hes)

/-- `complain` is never silent, so it fits any `P` that fails. -/
theorem adds_complain (w : Walk) (t : Token) (f : ScopeFault) (hP : ¬ P) :
    Adds w (w.complain t f) P :=
  ⟨[.scope t f], Array.toList_push, iff_of_false (List.cons_ne_nil _ _) hP⟩

/-- A check that reports something if it fails. -/
theorem adds_ite {c : Prop} [Decidable c] (w : Walk) (t : Token) (f : ScopeFault) :
    Adds w (if c then w.complain t f else w) (¬ c) := by
  split
  · next hc => exact adds_complain w t f (not_not_intro hc)
  · next hc => exact .of_eq rfl hc

/-- A name is reported if the innermost scope holds it already. -/
theorem adds_declare (w : Walk) (name : Token) :
    Adds w (w.declare name) (∀ scope ∈ w.scopes.head?, scope.contains name.lexeme = false) := by
  unfold declare
  cases hscopes : w.scopes with
  | nil => exact .of_eq rfl fun scope h => absurd h nofun
  | cons scope outer =>
    have h := adds_ite (c := scope.contains name.lexeme = true) w name .alreadyDeclared
    refine (h.of_report rfl rfl).congr ?_
    simp only [List.head?_cons, Option.mem_def, Option.some.injEq, forall_eq', Bool.not_eq_true]

/-- `introduce` asks for what `declare` asks for: its `define` is silent. -/
theorem adds_introduce (w : Walk) (name : Token) :
    Adds w (w.introduce name) (∀ scope ∈ w.scopes.head?, scope.contains name.lexeme = false) :=
  (adds_declare w name).of_report rfl (report_define _ _)

/-- Names are reported that the innermost scope holds already, or that come twice. -/
theorem adds_foldl_introduce (names : List Token) {scope : LocalScope} {outer : List LocalScope}
    (hw : w.scopes = scope :: outer) :
    Adds w (names.foldl introduce w)
      ((names.map Token.lexeme).Nodup ∧
        ∀ x ∈ names.map Token.lexeme, scope.contains x = false) := by
  induction names generalizing w scope with
  | nil => exact .of_eq rfl ⟨List.nodup_nil, fun x hx => absurd hx List.not_mem_nil⟩
  | cons name names ih =>
    have hgains := gains_introduce w name
    rw [hw] at hgains
    generalize hmid : (w.introduce name).scopes = mid at hgains
    cases hgains with
    | @cons _ scope₁ _ hfound =>
      refine ((adds_introduce w name).trans (ih hmid)).congr ?_
      -- The scope holds the new name, and otherwise what it held before.
      have hcontains : ∀ x, scope₁.contains x = (decide (x = name.lexeme) || scope.contains x) := by
        intro x
        rw [Std.TreeMap.contains_eq_isSome_getElem?, hfound,
          Std.TreeMap.contains_eq_isSome_getElem?]
        by_cases hx : x = name.lexeme <;> simp [hx]
      rw [hw]
      simp only [List.head?_cons, Option.mem_def, Option.some.injEq, forall_eq', List.map_cons,
        List.nodup_cons, List.mem_cons, forall_eq_or_imp, hcontains, Bool.or_eq_false_iff,
        decide_eq_false_iff_not]
      constructor
      · rintro ⟨hname, hnodup, hnames⟩
        exact ⟨⟨fun hmem => (hnames _ hmem).1 rfl, hnodup⟩, hname, fun x hx => (hnames x hx).2⟩
      · rintro ⟨⟨hname, hnodup⟩, hold, hnames⟩
        refine ⟨hold, hnodup, fun x hx => ⟨?_, hnames x hx⟩⟩
        rintro rfl
        exact hname hx

/-- A `return` is reported at the top level, and with a value in an initializer. -/
theorem adds_checkReturn (w : Walk) (t : Token) (hasValue : Bool) :
    Adds w (w.checkReturn t hasValue)
      (w.body ≠ .topLevel ∧ (hasValue = true → w.body ≠ .initializer)) := by
  unfold checkReturn
  refine (Adds.trans (adds_ite (c := w.body = .topLevel) w t .returnOutsideFunction)
    (adds_ite _ t .returnValueFromInitializer)).congr (and_congr_right fun _ => ?_)
  have hbody : (if w.body = .topLevel then w.complain t .returnOutsideFunction else w).body =
      w.body := by split <;> rfl
  rw [hbody]
  simp

/-- Leaving a scope reports something, unless all its names were read. -/
theorem adds_closeScope {scope : LocalScope} {outer : List LocalScope}
    (hw : w.scopes = scope :: outer) : Adds w w.closeScope (scope.unused = []) :=
  ⟨_, errors_closeScope hw, by rw [List.map_eq_nil_iff, List.map_eq_nil_iff]⟩

/-! ### What each part of a tree adds -/

section

variable {root n : Node} {p : Path}

/-- The scopes of a walk that is in step with the tree tell `Node.New`. -/
theorem Snap.new_iff (hw : w.Snap root p) :
    (∀ scope ∈ w.scopes.head?, scope.contains name.lexeme = false) ↔ root.New p name := by
  have hscopes := hw.scopes
  unfold Node.New
  generalize root.scopesAt p = qs at hscopes
  generalize w.scopes = scopes at hscopes
  cases hscopes with
  | nil => simp
  | @cons q scope qs scopes htells hrest =>
    have hknows : root.Knows p (q :: qs) (scope :: scopes) := .cons htells hrest
    have hcontains := hknows.contains_iff (k := 0) (x := name.lexeme) rfl rfl
    simp only [List.head?_cons, Option.mem_def, Option.some.injEq, forall_eq', ← hcontains,
      Bool.not_eq_true]

/-- **Coming to a part of a tree** reports something, unless the part is allowed where it is. -/
theorem Snap.adds_enter (hw : w.Snap root p) (hroot : root.Formed Token.Spelled)
    (hp : root.at? p = some n) : Adds w (w.enter n) (root.Allowed p n) := by
  cases n with
  | expr e =>
    cases e with
    | «variable» id name =>
      have hnames : root.Names p name.lexeme := ⟨id, name, hp, rfl⟩
      have hearly : w.inOwnInitializer name.lexeme = true ↔ root.EarlyRead p :=
        hw.inOwnInitializer_iff.trans
          ⟨fun h => h.earlyRead hnames, fun h => h.unsettled hroot hnames⟩
      have h := adds_ite (c := w.inOwnInitializer name.lexeme = true) w name .readInOwnInitializer
      exact (h.of_report rfl (report_read _ id name)).congr (not_congr hearly)
    | thisRef id keyword =>
      show Adds w (if w.inClass = true then w.read id keyword else _) (root.inClassAt p = true)
      rw [← hw.inClass]
      split
      · next hclass => exact .of_eq (report_read w id keyword) hclass
      · next hclass => exact adds_complain w keyword _ hclass
    | _ => exact .of_eq rfl trivial
  | stmt s =>
    cases s with
    | varDecl name e => exact (adds_declare w name).congr hw.new_iff
    | funDecl decl =>
      show Adds w (w.nameFunction decl) (∀ name ∈ decl.name?, root.New p name)
      unfold nameFunction
      cases decl.name? with
      | none => exact .of_eq rfl fun name h => absurd h nofun
      | some name =>
        refine (adds_introduce w name).congr (hw.new_iff.trans ?_)
        simp only [Option.mem_def, Option.some.injEq, forall_eq']
    | ret keyword e =>
      refine (adds_checkReturn w keyword e.isSome).congr ?_
      rw [hw.body]
      exact Iff.rfl
    | classDecl name methods =>
      exact ((adds_introduce { w with inClass := true } name).of_report rfl rfl).congr hw.new_iff
    | _ => exact .of_eq rfl trivial
  | function kind decl =>
    -- The scope is new, so parameters can only clash with each other.
    have h := adds_foldl_introduce (w := { w with body := kind }.openScope ∅) decl.params rfl
    exact (h.of_report rfl rfl).congr (and_iff_left fun x _ => Std.TreeMap.contains_emptyc)
  | _ => exact .of_eq rfl trivial

/-- All names of a scope were read exactly if the tree tells so. -/
theorem Snap.unused_eq_nil_iff (hw : w.Snap root (p ++ [n.children.length]))
    (hp : root.at? p = some n) (hopens : n.opensScope = true) :
    ∃ scope outer, w.scopes = scope :: outer ∧ (scope.unused = [] ↔ root.Spent p n) := by
  have hscopes := hw.scopes
  rw [Node.scopesAt_concat hp, if_pos hopens] at hscopes
  generalize w.scopes = scopes at hscopes
  cases hscopes with
  | @cons _ scope _ outer htells =>
    refine ⟨scope, outer, rfl, ?_⟩
    rw [LocalScope.unused_eq_nil_iff]
    -- The last declaration of a name is the one whose use the scope knows.
    constructor
    · intro hread _ x r hr
      have hknown := htells x
      generalize hfound : scope[x]? = found at hknown
      cases hknown with
      | unknown hnot => exact absurd ⟨r, hr.declares, hr.before⟩ hnot
      | @known r' binding hr' hused =>
        obtain rfl := hr.unique hr'
        have husage := hread x binding.usage (by rw [hfound]; rfl)
        rw [husage] at hused
        exact hused
    · intro hspent x usage hfound
      obtain ⟨binding, hbinding, rfl⟩ := Option.map_eq_some_iff.1 hfound
      have hknown := htells x
      rw [hbinding] at hknown
      cases hknown with
      | @known r _ hr hused =>
        have hread := hspent hopens x r hr
        cases husage : binding.usage with
        | read => rfl
        | declared | defined =>
          rw [husage] at hused
          exact absurd hread hused.1

/-- **Leaving a part of a tree** reports something, unless all names of its scope were read. -/
theorem Snap.adds_leave (hw : w.Snap root (p ++ [n.children.length])) (hp : root.at? p = some n)
    (start : Walk) : Adds w (Walk.leave start n w) (root.Spent p n) := by
  have hclose (hopens : n.opensScope = true) : Adds w w.closeScope (root.Spent p n) := by
    obtain ⟨scope, outer, hscopes, hspent⟩ := hw.unused_eq_nil_iff hp hopens
    exact (adds_closeScope hscopes).congr hspent
  have hother {w' : Walk} (h : w'.report = w.report) (hopens : n.opensScope = false) :
      Adds w w' (root.Spent p n) := by
    refine .of_eq h fun hopens' => ?_
    rw [hopens] at hopens'
    cases hopens'
  cases n with
  | expr e =>
    cases e with
    | assign id name e => exact hother (report_refer w id name) rfl
    | _ => exact hother rfl rfl
  | stmt s =>
    cases s with
    | varDecl name e => exact hother (report_define w name) rfl
    | block body => exact hclose rfl
    | classDecl name methods => exact (hclose rfl).of_report rfl rfl
    | _ => exact hother rfl rfl
  | function kind decl => exact (hclose rfl).of_report rfl rfl
  | _ => exact hother rfl rfl

end

end Walk

/-! ### What the whole walk adds -/

namespace Node

variable {root n : Node} {p b : Path} {i : Nat}

/-- Up to `b`, all parts of the tree are allowed where they are, and those that were left are
    spent. -/
structure KeptUpTo (root : Node) (b : Path) : Prop where
  allowed : ∀ (p : Path) n, root.at? p = some n → p.Before b → root.Allowed p n
  spent : ∀ (p : Path) n, root.at? p = some n → p.Before b → p ∉ b.above → root.Spent p n

/-- In front of the whole tree, nothing is asked for yet. -/
theorem keptUpTo_nil (root : Node) : root.KeptUpTo [] :=
  ⟨fun p _ _ h => absurd h (Path.not_before_nil p), fun p _ _ h => absurd h (Path.not_before_nil p)⟩

/-- Entering the part at `p` adds `Allowed` for it, which is what `Walk.enter` checks. -/
theorem keptUpTo_concat_zero (hp : root.at? p = some n) :
    root.KeptUpTo (p ++ [0]) ↔ root.KeptUpTo p ∧ root.Allowed p n := by
  constructor
  · rintro ⟨hallowed, hspent⟩
    refine ⟨⟨fun r m hr hb => ?_, fun r m hr hb habove => ?_⟩, ?_⟩
    · exact hallowed r m hr (Path.before_concat_zero.2 (.inl hb))
    · refine hspent r m hr (Path.before_concat_zero.2 (.inl hb)) ?_
      rw [Path.above_concat, List.mem_cons, not_or]
      exact ⟨hb.ne, habove⟩
    · exact hallowed p n hp (Path.before_concat_zero.2 (.inr rfl))
  · rintro ⟨⟨hallowed, hspent⟩, hn⟩
    refine ⟨fun r m hr hb => ?_, fun r m hr hb habove => ?_⟩
    · obtain hb | rfl := Path.before_concat_zero.1 hb
      · exact hallowed r m hr hb
      · cases hp.symm.trans hr
        exact hn
    · rw [Path.above_concat, List.mem_cons, not_or] at habove
      exact hspent r m hr ((Path.before_concat_zero.1 hb).resolve_right habove.1) habove.2

/-- Leaving the part at `p ++ [i]` adds `Spent` for it, which is what `Walk.leave` checks. -/
theorem keptUpTo_succ (hp : root.at? (p ++ [i]) = some n) :
    root.KeptUpTo (p ++ [i + 1]) ↔
      root.KeptUpTo (p ++ [i] ++ [n.children.length]) ∧ root.Spent (p ++ [i]) n := by
  have hbefore {r : Path} {m : Node} (hr : root.at? r = some m) :
      r.Before (p ++ [i + 1]) ↔ r.Before (p ++ [i] ++ [n.children.length]) :=
    before_succ_iff hp (by rw [hr, Option.isSome_some])
  -- Behind a part, the part itself is no longer on the way.
  have habove (r : Path) (c : Nat) :
      r ∉ (p ++ [i] ++ [c]).above ↔ r ≠ p ++ [i] ∧ r ∉ (p ++ [i + 1]).above := by
    rw [Path.above_concat, Path.above_concat, Path.above_concat, List.mem_cons (b := p ++ [i]),
      not_or]
  constructor
  · rintro ⟨hallowed, hspent⟩
    refine ⟨⟨fun r m hr hb => hallowed r m hr ((hbefore hr).2 hb), fun r m hr hb hr' => ?_⟩, ?_⟩
    · exact hspent r m hr ((hbefore hr).2 hb) ((habove r _).1 hr').2
    · refine hspent _ n hp (Path.before_concat_succ.2 (.inr (List.prefix_refl _))) fun hmem => ?_
      rw [Path.above_concat, ← Path.above_concat p i] at hmem
      exact (Path.mem_above_iff.1 hmem).2 rfl
  · rintro ⟨⟨hallowed, hspent⟩, hn⟩
    refine ⟨fun r m hr hb => hallowed r m hr ((hbefore hr).1 hb), fun r m hr hb hr' => ?_⟩
    by_cases hrp : r = p ++ [i]
    · subst hrp
      cases hp.symm.trans hr
      exact hn
    · exact hspent r m hr ((hbefore hr).1 hb) ((habove r _).2 ⟨hrp, hr'⟩)

end Node

/-- At the end of a program, all its parts were entered and left. -/
theorem Node.keptUpTo_end {ss : List Stmt} :
    (Node.stmts ss).KeptUpTo [(Node.stmts ss).children.length] ↔
      (∀ p n, (Node.stmts ss).at? p = some n → (Node.stmts ss).Allowed p n) ∧
        ∀ p n, (Node.stmts ss).at? p = some n → (Node.stmts ss).Spent p n := by
  have hbefore {p : Path} {n : Node} (hp : (Node.stmts ss).at? p = some n) :
      p.Before [(Node.stmts ss).children.length] :=
    (Node.before_concat_length (p := []) (by rw [hp, Option.isSome_some]) rfl).2
      (.inr List.nil_prefix)
  constructor
  · rintro ⟨hallowed, hspent⟩
    refine ⟨fun p n hp => hallowed p n hp (hbefore hp), fun p n hp => ?_⟩
    cases p with
    | nil =>
      -- The program itself has no scope.
      cases hp
      exact nofun
    | cons i p =>
      refine hspent _ n hp (hbefore hp) fun hmem => ?_
      have hmem : i :: p ∈ [[]] := hmem
      exact List.cons_ne_nil i p (List.mem_singleton.1 hmem)
  · rintro ⟨hallowed, hspent⟩
    exact ⟨fun p n hp _ => hallowed p n hp, fun p n hp _ _ => hspent p n hp⟩

/-- **The walk reports something, unless all that it asks for is kept.** -/
theorem Walk.along_adds {root : Node} (hroot : root.Formed Token.Spelled) (first : Walk) :
    Walk.Along root fun p w => w.Snap root p ∧ Walk.Adds first w (root.KeptUpTo p) := by
  constructor
  · rintro p n w hp ⟨hw, hadds⟩
    refine ⟨hw.enter hp, ?_⟩
    exact (hadds.trans (hw.adds_enter hroot hp)).congr (Node.keptUpTo_concat_zero hp).symm
  · rintro p i n start w hp ⟨hstart, -⟩ ⟨hw, hadds⟩
    refine ⟨hstart.leave hp hw, ?_⟩
    exact (hadds.trans (hw.adds_leave hp start)).congr (Node.keptUpTo_succ hp).symm

/-! ### Functions around a path -/

namespace Node

variable {root n m : Node} {p q r f : Path} {i : Nat} {x : String} {ss : List Stmt} {kind : Body}
  {decl : FunDecl}

/-- The kind of body that a path is in is that of the innermost function around it. -/
theorem bodyAt_eq (root : Node) (p : Path) :
    root.bodyAt p =
      ((root.functionsAt p).head?.bind fun f => (root.at? f).bind bodyKind?).getD .topLevel := by
  unfold bodyAt functionsAt
  refine congrArg (Option.getD · _) ?_
  induction p.above with
  | nil => rfl
  | cons f fs ih =>
    have hany : (root.at? f).any (·.bodyKind?.isSome) = ((root.at? f).bind bodyKind?).isSome := by
      cases root.at? f <;> rfl
    rw [List.findSome?_cons, List.filter_cons, hany]
    cases hkind : (root.at? f).bind bodyKind? with
    | none => exact ih
    | some kind => exact hkind.symm

/-- Functions are function literals, declared functions, or methods. -/
theorem kind_of_getElem?_children (h : m.children[i]? = some (.function kind decl)) :
    kind = .function ∨
      i = 0 ∧ (∃ rest, m = .functions (decl :: rest)) ∧ kind = Walk.methodBody decl := by
  obtain ⟨site, hchild⟩ :=
    Visit.exists_child_of_getElem? (w := Resolution.start ∅ .empty) [] h
  generalize Walk.pastAll _ _ = w at hchild
  cases hchild with
  | named => exact .inl rfl
  | part hpart =>
    cases hpart with
    | literal => exact .inl rfl
    | @method _ rest =>
      refine .inr ⟨?_, ⟨rest, rfl⟩, rfl⟩
      match i with
      | 0 => rfl
      | 1 => cases h

/-- Which functions are run on each new object. -/
theorem kind_spec (hf : (Node.stmts ss).at? f = some (.function kind decl)) :
    kind ≠ .topLevel ∧ (kind = .initializer ↔ (Node.stmts ss).InitMethod f) := by
  have hinit : (Node.stmts ss).InitMethod f → kind = .initializer := by
    rintro ⟨methods, decl', rest, rfl, hmethods, hlabel⟩
    rw [at?_concat, hmethods] at hf
    cases hf
    exact if_pos (decide_eq_true hlabel)
  cases f using List.reverseRecOn with
  | nil => cases hf
  | append_singleton f' i =>
    rw [at?_concat] at hf
    obtain ⟨m, hm, hchild⟩ := Option.bind_eq_some_iff.1 hf
    obtain rfl | ⟨rfl, ⟨rest, rfl⟩, rfl⟩ := kind_of_getElem?_children hchild
    · exact ⟨nofun, nofun, hinit⟩
    · unfold Walk.methodBody at hinit ⊢
      split
      · next hlabel =>
        exact ⟨nofun, fun _ => ⟨f', decl, rest, rfl, hm, of_decide_eq_true hlabel⟩, fun _ => rfl⟩
      · next hlabel =>
        refine ⟨nofun, nofun, fun h => ?_⟩
        have hbody := hinit h
        rw [if_neg hlabel] at hbody
        exact hbody

/-- The innermost function around a path, if there is one, tells the kind of body. -/
theorem exists_of_functionsAt {fs : List Path} (h : root.functionsAt p = f :: fs) :
    ∃ kind decl, root.at? f = some (.function kind decl) ∧ root.bodyAt p = kind := by
  have hmem : f ∈ root.functionsAt p := h ▸ List.mem_cons_self
  obtain ⟨n, hn, hkind⟩ := (Option.any_eq_true _ _).1 (List.mem_filter.1 hmem).2
  cases n with
  | function kind decl =>
    refine ⟨kind, decl, hn, ?_⟩
    rw [bodyAt_eq, h, List.head?_cons, Option.bind_some, hn]
    rfl
  | expr | exprs | stmt | stmts | functions => cases hkind

/-- The check of `return` and the rule `WellScoped.returns`. -/
theorem bodyAt_ne_topLevel_iff :
    (Node.stmts ss).bodyAt p ≠ .topLevel ↔ (Node.stmts ss).functionsAt p ≠ [] := by
  cases h : (Node.stmts ss).functionsAt p with
  | nil =>
    rw [bodyAt_eq, h]
    exact iff_of_false (not_not_intro rfl) (not_not_intro rfl)
  | cons f fs =>
    obtain ⟨kind, decl, hf, rfl⟩ := exists_of_functionsAt h
    exact iff_of_true (kind_spec hf).1 (List.cons_ne_nil f fs)

/-- The check of `return` with a value and the rule `WellScoped.values`. -/
theorem bodyAt_ne_initializer_iff :
    (Node.stmts ss).bodyAt p ≠ .initializer ↔
      ∀ f, ((Node.stmts ss).functionsAt p).head? = some f → ¬ (Node.stmts ss).InitMethod f := by
  cases h : (Node.stmts ss).functionsAt p with
  | nil =>
    rw [bodyAt_eq, h]
    exact iff_of_true nofun fun f hf => absurd hf nofun
  | cons f fs =>
    obtain ⟨kind, decl, hf, rfl⟩ := exists_of_functionsAt h
    rw [ne_eq, (kind_spec hf).2]
    simp only [List.head?_cons, Option.some.injEq, forall_eq']

/-- The check of `this` and the rule `WellScoped.this`. -/
theorem inClassAt_iff :
    root.inClassAt p = true ↔
      ∃ q ∈ p.above, ∃ name methods, root.at? q = some (.stmt (.classDecl name methods)) := by
  unfold inClassAt
  rw [List.any_eq_true]
  refine exists_congr fun q => and_congr_right fun _ => ?_
  constructor
  · intro h
    obtain ⟨n, hn, hclass⟩ := (Option.any_eq_true _ _).1 h
    unfold isClass at hclass
    split at hclass
    · exact ⟨_, _, hn⟩
    · cases hclass
  · rintro ⟨name, methods, hq⟩
    rw [hq]
    rfl

/-! ### Declarations -/

/-- What is `Allowed` at `p` declares a name that is `New` there. -/
theorem Allowed.new {name : Token} (h : root.Allowed p n) (hname : n.declared? = some name) :
    root.New p name := by
  cases n with
  | stmt s =>
    cases s with
    | varDecl | classDecl =>
      cases hname
      exact h
    | funDecl decl => exact h name hname
    | _ => cases hname
  | _ => cases hname

/-- What a scope declares is declared in a part of the tree with a scope. -/
theorem Declares.exists_scope (h : root.Declares q x r) :
    ∃ n, root.at? q = some n ∧ n.opensScope = true := by
  cases h with
  | @first n hq hx =>
    refine ⟨n, hq, ?_⟩
    unfold firstNames at hx
    split at hx
    · rfl
    · rfl
    · cases hx
  | inside _ _ _ hq =>
    exact (Option.any_eq_true _ _).1 (List.mem_filter.1 (List.mem_of_mem_head? hq)).2

/-- What a well-formed part of a tree declares is a name. -/
theorem Formed.isName_of_declared? {T : Token → Prop} {name : Token} (hn : n.Formed T)
    (hname : n.declared? = some name) : name.IsName T := by
  cases n with
  | stmt s =>
    refine hn.isName_of_mem_declared name ?_
    cases s with
    | varDecl | classDecl =>
      cases hname
      exact List.mem_singleton_self _
    | funDecl decl => exact Option.mem_toList.2 hname
    | _ => cases hname
  | _ => cases hname

/-- Only classes declare `this`. -/
theorem Declares.eq_of_this (hroot : root.Formed Token.Spelled) (h : root.Declares q "this" r) :
    r = q ∧ (root.at? q).any isClass = true := by
  cases h with
  | @first n hq hx =>
    refine ⟨rfl, ?_⟩
    rw [hq]
    unfold firstNames at hx
    split at hx
    · next kind decl =>
      -- Parameters are names.
      obtain ⟨name, hname, hlexeme⟩ := List.mem_map.1 hx
      have hformed := hroot.at? hq
      cases decl
      exact absurd hlexeme (hformed.2.1 name hname).ne_this
    · rfl
    · cases hx
  | inside hr hname hx =>
    exact absurd hx ((hroot.at? hr).isName_of_declared? hname).ne_this

/-- What a scope declares is in front of its end. -/
theorem Declares.before_end (h : root.Declares q x r) (hq : root.at? q = some n) :
    r.Before (q ++ [n.children.length]) := by
  refine (before_concat_length h.isSome_at? hq).2 (.inr ?_)
  obtain rfl | hmem := h.eq_or_mem_above
  · exact List.prefix_refl r
  · exact (Path.mem_above_iff.1 hmem).1

/-- What means a name of a scope is in front of the end of the scope. -/
theorem Means.before_end (h : root.Means p x q r) (hreads : root.Reads p x)
    (hq : root.at? q = some n) : p.Before (q ++ [n.children.length]) := by
  obtain ⟨k, hk⟩ := h.home
  have hmem := mem_above_of_mem_scopesAt (List.mem_of_getElem? hk.scope)
  exact (before_concat_length hreads.isSome_at? hq).2 (.inr (Path.mem_above_iff.1 hmem).1)

/-! ### The rules and what the walk asks for -/

/-- If all that the walk asks for is kept, the program is well scoped. -/
theorem wellScoped_of_allowed (hroot : (Node.stmts ss).Formed Token.Spelled)
    (hallowed : ∀ p n, (Node.stmts ss).at? p = some n → (Node.stmts ss).Allowed p n)
    (hspent : ∀ p n, (Node.stmts ss).at? p = some n → (Node.stmts ss).Spent p n) :
    (Node.stmts ss).WellScoped := by
  have honce : ∀ q x r r', (Node.stmts ss).Declares q x r → (Node.stmts ss).Declares q x r' →
      ¬ r.Before r' := by
    intro q x r r' hr hr' hbefore
    -- The later one is not a first name, so the scope had to be without the name there.
    have hne : r' ≠ q := by
      rintro rfl
      exact hr.not_before hbefore
    obtain ⟨n, hn⟩ := Option.isSome_iff_exists.1 hr'.isSome_at?
    obtain ⟨name, hname, rfl⟩ := hr'.declared hne hn
    exact (hallowed r' n hn).new hname q (hr'.head?_eq hne) ⟨r, hr, hbefore⟩
  refine ⟨fun q x r r' hr hr' => ?_, fun q kind decl hq => hallowed q _ hq,
    fun q r x p hself hfirst => ?_, fun p keyword e hp => ?_, fun p keyword e hp => ?_,
    fun p id keyword hp => ?_, fun q x r hr hx => ?_⟩
  · obtain hlt | heq | hlt := Path.before_or_eq_or_before r r'
    · exact absurd hlt (honce q x r r' hr hr')
    · exact heq
    · exact absurd hlt (honce q x r' r hr' hr)
  · by_contra hliteral
    obtain ⟨id, name, hp, -⟩ := hself.names
    exact hallowed p _ hp ⟨q, r, x, hself, hliteral, hfirst⟩
  · exact bodyAt_ne_topLevel_iff.1 (hallowed p _ hp).1
  · exact bodyAt_ne_initializer_iff.1 ((hallowed p _ hp).2 rfl)
  · exact inClassAt_iff.1 (hallowed p _ hp)
  · obtain ⟨n, hn, hopens⟩ := hr.exists_scope
    have hlatest : (Node.stmts ss).Latest q (q ++ [n.children.length]) x r :=
      ⟨hr, hr.before_end hn, fun r' hr' _ => honce q x r r' hr hr'⟩
    obtain ⟨rfl, hclass⟩ | ⟨p, -, hreads, hmeans⟩ := hspent q n hn hopens x r hlatest
    · -- A class starts with nothing but `this`.
      refine absurd ?_ hx
      rw [hn] at hclass
      cases hr with
      | first hq hmem =>
        cases hq.symm.trans hn
        unfold firstNames at hmem
        split at hmem
        · cases hclass
        · exact List.mem_singleton.1 hmem
        · cases hmem
      | inside _ _ _ hq =>
        exact absurd (before_of_mem_scopesAt (List.mem_of_mem_head? hq)) (Path.Before.irrefl r)
    · exact ⟨p, hreads.names hroot hx, hmeans⟩

namespace WellScoped

/-- By the rule `once`, each declaration is `New` where it stands. -/
theorem new {name : Token} (h : root.WellScoped) (hp : root.at? p = some n)
    (hname : n.declared? = some name) : root.New p name := by
  rintro q hq ⟨r, hr, hbefore⟩
  exact hbefore.ne (h.once q name.lexeme r p hr (.inside hp hname rfl hq))

/-- In a well-scoped program, all names of a scope were read when it is left. -/
theorem spent (h : root.WellScoped) (hroot : root.Formed Token.Spelled)
    (hp : root.at? p = some n) : root.Spent p n := by
  intro hopens x r hr
  by_cases hx : x = "this"
  · subst hx
    exact .inl (hr.declares.eq_of_this hroot)
  · obtain ⟨p', hnames, hmeans⟩ := h.used p x r hr.declares hx
    exact .inr ⟨p', hmeans.before_end hnames.reads hp, hnames.reads, hmeans⟩

/-- In a well-scoped program, all parts are allowed where they are. -/
theorem allowed (h : (Node.stmts ss).WellScoped) (hp : (Node.stmts ss).at? p = some n) :
    (Node.stmts ss).Allowed p n := by
  cases n with
  | expr e =>
    cases e with
    | «variable» id name =>
      rintro ⟨q, r, x, hself, hliteral, hfirst⟩
      exact hliteral (h.initializers q r x p hself hfirst)
    | thisRef id keyword => exact inClassAt_iff.2 (h.this p id keyword hp)
    | _ => exact trivial
  | stmt s =>
    cases s with
    | varDecl | classDecl => exact h.new hp rfl
    | funDecl decl => exact fun name hname => h.new hp hname
    | ret keyword e =>
      refine ⟨bodyAt_ne_topLevel_iff.2 (h.returns p keyword e hp), fun hsome => ?_⟩
      obtain ⟨e, rfl⟩ := Option.isSome_iff_exists.1 hsome
      exact bodyAt_ne_initializer_iff.2 (h.values p keyword e hp)
    | _ => exact trivial
  | function kind decl => exact h.params p kind decl hp
  | _ => exact trivial

end WellScoped

end Node

/-- **Accepted programs are the well-scoped ones.** The walk over a program adds nothing to the
    report exactly if the program keeps the scoping rules. -/
theorem Resolution.silent_iff_wellScoped (source : String) (nextNode : NodeId)
    (report report' : Report) (depths : Depths) :
    let program := (Program.parse (Token.ofSource source) nextNode report).statements
    (Resolution.resolve program depths report').2 = report' ↔ (Node.stmts program).WellScoped := by
  intro program
  have hroot : (Node.stmts program).Formed Token.Spelled :=
    (Program.built_parse _ nextNode report (Token.spelled_ofSource source)).1
  obtain ⟨-, hadds⟩ := (Walk.along_adds hroot (Resolution.start depths report')).stmts
    ⟨.start _ _ _, .of_eq rfl (Node.keptUpTo_nil _)⟩
  refine hadds.report_eq_iff.trans (Node.keptUpTo_end.trans ⟨?_, fun h => ?_⟩)
  · rintro ⟨hallowed, hspent⟩
    exact Node.wellScoped_of_allowed hroot hallowed hspent
  · exact ⟨fun p n hp => h.allowed hp, fun p n hp => h.spent hroot hp⟩

end Scriptlet

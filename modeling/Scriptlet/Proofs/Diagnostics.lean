import Scriptlet.Proofs.Visit

namespace Scriptlet

/-!
# What the resolution walk reports

* `Walk.Grows`, `Walk.Passed.grows` — nothing that was reported is taken back.
* `Walk.Clean` — nothing was reported so far. What is behind a clean walk was clean.
* `Walk.Clean.pairwise` — where nothing is reported, no scope declares a name twice.
* `Visit.Below.clean` — where nothing is reported about a tree, nothing is about its parts.
-/

/-- Statements that declare no name in common. -/
def Stmt.Apart (s s' : Stmt) : Prop :=
  ∀ t ∈ s.declared, ∀ t' ∈ s'.declared, t.lexeme ≠ t'.lexeme

instance : Std.Symm Stmt.Apart := ⟨fun _ _ h t ht t' ht' heq => h t' ht' t ht heq.symm⟩

namespace Walk

/-! ### Reports grow -/

variable {w w' w'' : Walk} {scope : LocalScope} {outer : List LocalScope}

/-- `complain` makes the report longer. -/
@[simp]
theorem size_complain (w : Walk) (t : Token) (f : ScopeFault) :
    (w.complain t f).report.size = w.report.size + 1 := Array.size_push _

/-- `define` only marks a binding. -/
theorem report_define (w : Walk) (name : Token) : (w.define name).report = w.report := by
  unfold define
  split <;> rfl

/-- `refer` only records a depth. -/
theorem report_refer (w : Walk) (id : NodeId) (name : Token) :
    (w.refer id name).report = w.report := by
  unfold refer
  split <;> rfl

/-- `markRead` only marks a binding. -/
theorem report_markRead (w : Walk) (name : Token) : (w.markRead name).report = w.report := by
  unfold markRead
  split <;> rfl

/-- `read` is `refer` and `markRead`, so it reports nothing. -/
theorem report_read (w : Walk) (id : NodeId) (name : Token) :
    (w.read id name).report = w.report :=
  (report_markRead _ name).trans (report_refer w id name)

/-- What is reported at the end of a scope: each of its names that nothing read. -/
theorem errors_closeScope (h : w.scopes = scope :: outer) :
    w.closeScope.report.errors.toList = w.report.errors.toList ++
      (scope.unused.map Binding.token).map fun t => .scope t (.neverUsed t.lexeme) := by
  have hfold (bs : List Binding) (w : Walk) :
      (bs.foldl (fun w b => w.complain b.token (.neverUsed b.token.lexeme))
          w).report.errors.toList =
        w.report.errors.toList ++
          (bs.map Binding.token).map fun t => .scope t (.neverUsed t.lexeme) := by
    induction bs generalizing w with
    | nil => exact (List.append_nil _).symm
    | cons b bs ih =>
      rw [List.foldl_cons, ih, complain, Report.toList_errors_add, List.append_assoc]
      rfl
  unfold closeScope
  rw [h]
  exact hfold scope.unused { w with scopes := outer }

/-- Nothing that was reported is taken back. -/
def Grows (w w' : Walk) : Prop := w.report.errors.toList <+: w'.report.errors.toList

/-- A step that reports nothing. -/
theorem Grows.of_eq (h : w'.report = w.report) : Grows w w' := by
  unfold Grows
  rw [h]

/-- Steps in a row. -/
theorem Grows.trans (h : Grows w w') (h' : Grows w' w'') : Grows w w'' := List.IsPrefix.trans h h'

/-- Of two reports of which one grows into the other, that one is not the longer. -/
theorem Grows.size_le (h : Grows w w') : w.report.size ≤ w'.report.size := h.length_le

/-- `complain` adds one fault. -/
theorem grows_complain (w : Walk) (t : Token) (f : ScopeFault) : Grows w (w.complain t f) :=
  ⟨[.scope t f], Array.toList_push.symm⟩

/-- Leaving a scope adds to the report, at most. -/
theorem grows_closeScope (w : Walk) : Grows w w.closeScope := by
  cases h : w.scopes with
  | nil =>
    refine .of_eq ?_
    unfold closeScope
    rw [h]
  | cons scope outer => exact ⟨_, (errors_closeScope h).symm⟩

/-- `declare` reports a name that its scope holds already, and nothing else. -/
theorem grows_declare (w : Walk) (name : Token) : Grows w (w.declare name) := by
  unfold declare
  split
  · exact .of_eq rfl
  · simp only
    split
    · exact grows_complain w name _
    · exact .of_eq rfl

/-- **Reports grow** along the walk, since its operations only add to them. -/
theorem Passed.grows {ids : List NodeId} {names : List Token} (h : Passed ids names w w') :
    Grows w w' := by
  induction h with
  | refl | skip => exact .of_eq rfl
  | trans _ _ ih ih' => exact ih.trans ih'
  | complain => exact grows_complain _ _ _
  | refer => exact .of_eq (report_refer _ _ _)
  | markRead => exact .of_eq (report_markRead _ _)
  | declare _ ih => exact (grows_declare _ _).trans (ih.trans (.of_eq (report_define _ _)))
  | scope _ ih => exact ih.trans (grows_closeScope _)

/-! ### Clean walks -/

/-- Nothing was reported so far. -/
def Clean (w : Walk) : Prop := w.report.size = 0

namespace Clean

variable {w w' : Walk}

variable {scope : LocalScope} {outer : List LocalScope} {id : NodeId} {name : Token}

/-- What is behind a clean walk was clean. -/
theorem of_grows (h : w'.Clean) (hgrows : Grows w w') : w.Clean :=
  Nat.le_zero.1 (h ▸ hgrows.size_le)

/-- `of_grows` for `define`. -/
theorem of_define (h : (w.define name).Clean) : w.Clean :=
  h.of_grows (.of_eq (report_define w name))

/-- `of_grows` for an expression. -/
theorem of_expr {e : Expr} (h : (w.expr e).Clean) : w.Clean := h.of_grows (passed_expr e w).grows

/-- `of_grows` for statements. -/
theorem of_stmts {ss : List Stmt} (h : (w.stmts ss).Clean) : w.Clean :=
  h.of_grows (passed_stmts ss w).grows

/-- `of_grows` for a function. -/
theorem of_function {kind : Body} {decl : FunDecl} (h : (w.function kind decl).Clean) :
    w.Clean := h.of_grows (passed_function kind decl w).grows

/-- `of_grows` for methods. -/
theorem of_functions {fs : List FunDecl} (h : (w.functions fs).Clean) : w.Clean :=
  h.of_grows (passed_functions fs w).grows

/-- `of_grows` for the end of a scope. -/
theorem of_closeScope (h : w.closeScope.Clean) : w.Clean := h.of_grows (grows_closeScope w)

/-- A scope is left without a report only if all of its names were read. -/
theorem unused_eq_nil (h : w.closeScope.Clean) (hw : w.scopes = scope :: outer) :
    scope.unused = [] := by
  have hnil : w.closeScope.report.errors.toList = [] := List.length_eq_zero_iff.1 h
  rw [errors_closeScope hw, List.append_eq_nil_iff, List.map_eq_nil_iff] at hnil
  exact List.map_eq_nil_iff.1 hnil.2

/-- Where a `return` is not reported, the walk is unchanged by it, and any other walk that stands
    in the same kind of body is, too. -/
theorem checkReturn_eq {t : Token} {hasValue : Bool} (h : (w.checkReturn t hasValue).Clean)
    (hbody : w'.body = w.body) : w'.checkReturn t hasValue = w' := by
  have htop : w.body ≠ .topLevel := by
    intro htop
    unfold checkReturn Clean at h
    rw [if_pos htop] at h
    simp only at h
    split at h <;> simp at h
  have hvalue : (hasValue && decide (w.body = .initializer)) = false := by
    by_contra hvalue
    unfold checkReturn Clean at h
    rw [if_neg htop] at h
    simp [hvalue] at h
  unfold checkReturn
  rw [hbody, if_neg htop]
  simp only [hbody, hvalue, Bool.false_eq_true, if_false]

/-- A name that is read without a report is not in its own initializer. -/
theorem inOwnInitializer_eq_false (h : (w.expr (.variable id name)).Clean) :
    w.inOwnInitializer name.lexeme = false := by
  by_contra hown
  rw [Bool.not_eq_false] at hown
  rw [expr, if_pos hown] at h
  have hbefore := h.of_grows (passed_read _ id name).grows
  unfold Clean at hbefore
  rw [size_complain] at hbefore
  cases hbefore

/-- `this` is not reported only inside of a class. -/
theorem inClass_eq_true {keyword : Token} (h : (w.expr (.thisRef id keyword)).Clean) :
    w.inClass = true := by
  by_contra hclass
  unfold Clean at h
  rw [expr, if_neg hclass, size_complain] at h
  cases h

/-- A name is declared without a report only if its scope does not hold it yet. -/
theorem contains_eq_false (h : (w.declare name).Clean) (hw : w.scopes = scope :: outer) :
    scope.contains name.lexeme = false := by
  by_contra hcontains
  rw [Bool.not_eq_false] at hcontains
  unfold Clean declare at h
  simp [hw, hcontains] at h

/-- The same, told by the owners. -/
theorem owner_eq_none {owner : String → Option Token} {outer : Owners} (h : (w.declare name).Clean)
    (hw : w.owners = owner :: outer) : owner name.lexeme = none := by
  unfold owners at hw
  cases hscopes : w.scopes with
  | nil =>
    rw [hscopes] at hw
    cases hw
  | cons scope scopes =>
    rw [hscopes, List.map_cons] at hw
    rw [← (List.cons.inj hw).1]
    show scope[name.lexeme]?.map Binding.token = none
    rw [Std.TreeMap.getElem?_eq_none_of_contains_eq_false (contains_eq_false h hscopes)]
    rfl

end Clean

/-! ### Names declared once -/

section

variable {T : Token → Prop} {w : Walk} {owner : String → Option Token} {outer : Owners}

/-- What a statement declares was not declared before in its scope. -/
theorem Clean.owner_eq_none_of_stmt {s : Stmt} (hclean : (w.stmt s).Clean) (hs : s.Formed T)
    (hw : w.owners = owner :: outer) {t : Token} (ht : t ∈ s.declared) :
    owner t.lexeme = none := by
  cases s with
  | varDecl name init =>
    cases List.mem_singleton.1 ht
    cases init with
    | none => exact hclean.of_define.owner_eq_none hw
    | some e => exact hclean.of_define.of_expr.owner_eq_none hw
  | funDecl decl =>
    have hname : decl.name? = some t := Option.mem_toList.1 ht
    have hnamed : (w.nameFunction decl).Clean := Clean.of_function hclean
    unfold nameFunction at hnamed
    rw [hname] at hnamed
    exact hnamed.of_define.owner_eq_none hw
  | classDecl name methods =>
    cases List.mem_singleton.1 ht
    have hinside : (w.enterClass t).Clean :=
      Clean.of_functions (Clean.of_closeScope (w := functions methods (w.enterClass t)) hclean)
    have hnamed : ({ w with inClass := true }.introduce t).Clean := hinside
    exact hnamed.of_define.owner_eq_none hw
  | expr | print | block | ifElse | whileLoop | ret =>
    rw [Stmt.declared_eq_nil hs rfl] at ht
    cases ht

/-- Names that are declared are held from then on, and nothing is lost. -/
theorem Owners.exists_foldl_declare (owner : String → Option Token) (outer : Owners)
    (names : List Token) :
    ∃ owner', names.foldl Owners.declare (owner :: outer) = owner' :: outer ∧
      (∀ x, owner' x = none → owner x = none) ∧ ∀ t ∈ names, owner' t.lexeme ≠ none := by
  induction names generalizing owner with
  | nil => exact ⟨owner, rfl, fun _ h => h, fun _ h => absurd h List.not_mem_nil⟩
  | cons name names ih =>
    obtain ⟨owner', hfold, hkeeps, hholds⟩ :=
      ih (fun x => if x = name.lexeme then some name else owner x)
    refine ⟨owner', hfold, fun x hx => ?_, List.forall_mem_cons.2 ⟨fun hx => ?_, hholds⟩⟩
    · have hx' := hkeeps x hx
      split at hx'
      · cases hx'
      · exact hx'
    · have hx' := hkeeps _ hx
      simp at hx'

/-- What statements declare was not declared before in their scope. -/
theorem Clean.owner_eq_none_of_stmts {ss : List Stmt} (hclean : (w.stmts ss).Clean)
    (hss : Stmt.FormedAll T ss) (hw : w.owners = owner :: outer) :
    ∀ s ∈ ss, ∀ t ∈ s.declared, owner t.lexeme = none := by
  induction ss generalizing w owner with
  | nil => exact fun s hs => absurd hs List.not_mem_nil
  | cons s ss ih =>
    rw [stmts] at hclean
    obtain ⟨owner', hfold, hkeeps, -⟩ := Owners.exists_foldl_declare owner outer s.declared
    have hw' : (w.stmt s).owners = owner' :: outer := by rw [owners_stmt, hw, hfold]
    refine List.forall_mem_cons.2 ⟨fun t ht => ?_, fun s' hs' t ht => ?_⟩
    · exact hclean.of_stmts.owner_eq_none_of_stmt hss.1 hw ht
    · exact hkeeps _ (ih hclean hss.2 hw' s' hs' t ht)

/-- **No scope declares a name twice** where nothing is reported. -/
theorem Clean.pairwise {ss : List Stmt} (hclean : (w.stmts ss).Clean) (hss : Stmt.FormedAll T ss)
    (hw : w.owners = owner :: outer) :
    ss.Pairwise Stmt.Apart := by
  induction ss generalizing w owner with
  | nil => exact .nil
  | cons s ss ih =>
    rw [stmts] at hclean
    obtain ⟨owner', hfold, -, hholds⟩ := Owners.exists_foldl_declare owner outer s.declared
    have hw' : (w.stmt s).owners = owner' :: outer := by rw [owners_stmt, hw, hfold]
    refine .cons (fun s' hs' t ht t' ht' heq => ?_) (ih hclean hss.2 hw')
    -- the scope holds the name when the second statement declares it
    apply hholds t ht
    rw [heq]
    exact hclean.owner_eq_none_of_stmts hss.2 hw' s' hs' t' ht'

end

/-- What is reported about a part of a tree is reported about the tree. -/
theorem Part.grows {n n' : Node} (h : w.Part n w' n') : Grows (w'.past n') (w.past n) := by
  obtain ⟨_, _, -, ⟨_, hpost⟩, -⟩ := h.split
  exact hpost.grows

end Walk

namespace Visit

variable {v u : Visit}

/-- What is reported about a child is reported about the node. -/
theorem Child.grows (h : v.Child u) : Walk.Grows (u.walk.past u.node) (v.walk.past v.node) := by
  cases h with
  | part h => exact h.grows
  | initializer => exact .of_eq (Walk.report_define _ _)
  | named | rest => exact .of_eq rfl
  | block | methods => exact Walk.grows_closeScope _
  | @function w site kind decl =>
    cases decl
    exact Walk.grows_closeScope _

/-- Where nothing is reported about a tree, nothing is reported about its parts. -/
theorem Below.clean (h : v.Below u) (hv : (v.walk.past v.node).Clean) :
    (u.walk.past u.node).Clean := by
  induction h with
  | refl => exact hv
  | tail _ hc ih => exact ih.of_grows hc.grows

end Visit

end Scriptlet

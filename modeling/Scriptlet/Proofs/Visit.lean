import Mathlib.Logic.Relation
import Scriptlet.Proofs.Walk

namespace Scriptlet

/-!
# Visits of the resolution walk

Where the resolution walk stands when it comes to a part of a tree.

* `Construct` — what opens a scope: a block, a function, or the class around its methods.
* `Walk.enter`, `Walk.leave` — what the walk does in front of and behind the parts of a part of a
  tree; in between it goes over them in order (`Walk.past_eq`).
* `Visit` — a part of a tree, the walk in front of it, and the constructs whose scopes are open.
* `Visit.Child`, `Visit.Below` — one step of the walk down the tree, and any number of them. There
  is a step to every part (`Visit.exists_child`).
* `Visit.Lawful` — what every visit below a well-formed program satisfies.
* `Visit.depth?_of_recorded` — the depth recorded for a node is the distance of its name at the
  visit of the node.
* `Visit.Told` — a table holds what is recorded for the nodes of a part of a tree.
-/

/-- What a scope is opened for. -/
inductive Construct where
  | block (body : List Stmt)
  /-- A function: its parameters and its body. -/
  | function (decl : FunDecl)
  /-- A class: `this` around its methods. -/
  | methods (name : String) (decls : List FunDecl)

namespace Walk

/-- A block starts without names. -/
theorem owners_openBlock (w : Walk) : (w.openScope ∅).owners = (fun _ => none) :: w.owners := by
  rw [owners_openScope]
  rfl

/-- A function starts with its parameters. -/
theorem owners_enterFunction (kind : Body) (decl : FunDecl) (w : Walk) :
    (w.enterFunction kind decl).owners =
      decl.params.foldl Owners.declare ((fun _ => none) :: w.owners) := by
  unfold enterFunction
  rw [(passed_foldl_introduce _ _).owners_eq, owners_openBlock]
  rfl

/-- The names of the scope around the methods of a class. -/
def thisOwner (name : Token) : String → Option Token :=
  fun x => if x = "this" then some ⟨.symbol .thisKw, "this", name.line⟩ else none

/-- The methods of a class start with `this`, and with the name of the class around it. -/
theorem owners_enterClass (name : Token) (w : Walk) :
    (w.enterClass name).owners = thisOwner name :: w.owners.declare name := by
  unfold enterClass
  rw [owners_openScope, owners_introduce]
  refine congrArg₂ List.cons ?_ rfl
  funext x
  unfold thisScope thisOwner
  rw [Std.TreeMap.getElem?_insert]
  by_cases hx : x = "this"
  · simp [hx]
  · simp [hx, Ne.symm hx]

/-- The walk behind a part of a tree. -/
def past : Node → Walk → Walk
  | .expr e, w => w.expr e
  | .exprs es, w => w.exprs es
  | .stmt s, w => w.stmt s
  | .stmts ss, w => w.stmts ss
  | .function kind decl, w => w.function kind decl
  | .functions decls, w => w.functions decls

/-- What the walk does in front of the parts of a part of a tree. -/
def enter : Node → Walk → Walk
  | .expr (.variable id name), w => w.expr (.variable id name)
  | .expr (.thisRef id keyword), w => w.expr (.thisRef id keyword)
  | .stmt (.varDecl name _), w => w.declare name
  | .stmt (.block _), w => w.openScope ∅
  | .stmt (.funDecl decl), w => w.nameFunction decl
  | .stmt (.ret keyword e), w => w.checkReturn keyword e.isSome
  | .stmt (.classDecl name _), w => w.enterClass name
  | .function kind decl, w => w.enterFunction kind decl
  | _, w => w

/-- What the walk does behind the parts of a part of a tree, in front of which it was `start`. -/
def leave (start : Walk) : Node → Walk → Walk
  | .expr (.assign id name _), w => w.refer id name
  | .stmt (.varDecl name _), w => w.define name
  | .stmt (.block _), w => w.closeScope
  | .stmt (.classDecl _ _), w => { w.closeScope with inClass := start.inClass }
  | .function _ _, w => { w.closeScope with body := start.body }
  | _, w => w

/-- The walk behind a number of parts, one after another. -/
def pastAll (ns : List Node) (w : Walk) : Walk := ns.foldl (fun w n => w.past n) w

/-- No parts. -/
@[simp]
theorem pastAll_nil (w : Walk) : w.pastAll [] = w := rfl

/-- The first part, and then the others. -/
@[simp]
theorem pastAll_cons (n : Node) (ns : List Node) (w : Walk) :
    w.pastAll (n :: ns) = (w.past n).pastAll ns := rfl

/-- Some parts, and then the others. -/
@[simp]
theorem pastAll_append (ns ns' : List Node) (w : Walk) :
    w.pastAll (ns ++ ns') = (w.pastAll ns).pastAll ns' := List.foldl_append

/-- The walk over a part of a tree goes over its parts in order. -/
theorem past_eq (n : Node) (w : Walk) :
    w.past n = leave w n ((w.enter n).pastAll n.children) := by
  cases n with
  | expr e => cases e <;> rfl
  | exprs es => cases es <;> rfl
  | stmt s =>
    cases s with
    | varDecl name e => cases e <;> rfl
    | ifElse c a b => cases b <;> rfl
    | ret keyword e => cases e <;> rfl
    | _ => rfl
  | stmts ss => cases ss <;> rfl
  | function kind decl =>
    cases decl
    rfl
  | functions decls => cases decls <;> rfl

/-- A part of a tree in whose scopes no name was declared since the walk came to the tree. -/
inductive Part (w : Walk) : Node → Walk → Node → Prop
  | grouped {e} : Part w (.expr (.group e)) w (.expr e)
  | assigned {id name e} : Part w (.expr (.assign id name e)) w (.expr e)
  | operand {op e} : Part w (.expr (.unary op e)) w (.expr e)
  | left {a op b} : Part w (.expr (.binary a op b)) w (.expr a)
  | right {a op b} : Part w (.expr (.binary a op b)) (w.expr a) (.expr b)
  | logicalLeft {a op b} : Part w (.expr (.logical a op b)) w (.expr a)
  | logicalRight {a op b} : Part w (.expr (.logical a op b)) (w.expr a) (.expr b)
  | chosenBy {c q a b} : Part w (.expr (.conditional c q a b)) w (.expr c)
  | chosenTrue {c q a b} : Part w (.expr (.conditional c q a b)) (w.expr c) (.expr a)
  | chosenFalse {c q a b} :
      Part w (.expr (.conditional c q a b)) ((w.expr c).expr a) (.expr b)
  | callee {e paren es} : Part w (.expr (.call e paren es)) w (.expr e)
  | arguments {e paren es} : Part w (.expr (.call e paren es)) (w.expr e) (.exprs es)
  | object {e name} : Part w (.expr (.get e name)) w (.expr e)
  | owner {a name b} : Part w (.expr (.set a name b)) w (.expr a)
  | fieldValue {a name b} : Part w (.expr (.set a name b)) (w.expr a) (.expr b)
  | literal {decl} : Part w (.expr (.function decl)) w (.function .function decl)
  | argument {e es} : Part w (.exprs (e :: es)) w (.expr e)
  | nextArguments {e es} : Part w (.exprs (e :: es)) (w.expr e) (.exprs es)
  | evaluated {e} : Part w (.stmt (.expr e)) w (.expr e)
  | printed {e} : Part w (.stmt (.print e)) w (.expr e)
  | condition {c a b} : Part w (.stmt (.ifElse c a b)) w (.expr c)
  | whenTrue {c a b} : Part w (.stmt (.ifElse c a b)) (w.expr c) (.stmt a)
  | whenFalse {c a b} : Part w (.stmt (.ifElse c a (some b))) ((w.expr c).stmt a) (.stmt b)
  | test {c a} : Part w (.stmt (.whileLoop c a)) w (.expr c)
  | loopBody {c a} : Part w (.stmt (.whileLoop c a)) (w.expr c) (.stmt a)
  | returned {t e} : Part w (.stmt (.ret t (some e))) (w.checkReturn t true) (.expr e)
  | statement {s ss} : Part w (.stmts (s :: ss)) w (.stmt s)
  | method {f fs} : Part w (.functions (f :: fs)) w (.function (methodBody f) f)
  | nextMethods {f fs} :
      Part w (.functions (f :: fs)) (w.function (methodBody f) f) (.functions fs)

section

variable {T : Token → Prop} {w w' : Walk} {n n' : Node}

/-- What `Part` tells of are parts. -/
theorem Part.mem_children (h : Part w n w' n') : n' ∈ n.children := by
  cases h with
  | @condition c a b | @whenTrue c a b => cases b <;> simp [Node.children]
  | _ => simp [Node.children]

/-- No name is declared between a well-formed tree and such a part of it. -/
theorem Part.owners (h : Part w n w' n') (hn : n.Formed T) : w'.owners = w.owners := by
  cases h with
  | right | logicalRight | chosenTrue | arguments | fieldValue | nextArguments | whenTrue
  | loopBody => exact owners_expr _ _
  | chosenFalse => rw [owners_expr, owners_expr]
  | whenFalse =>
    rw [owners_stmt, Stmt.declared_eq_nil hn.2.1.1 hn.2.1.2, List.foldl_nil, owners_expr]
  | returned => exact (passed_checkReturn _ _ _).owners_eq
  | nextMethods => exact owners_function _ _ _
  | _ => rfl

/-- The walk goes over nodes. -/
def Crosses (ids : List NodeId) (w w' : Walk) : Prop := ∃ names, Passed ids names w w'

/-- `Crosses` forgets which names were declared. -/
theorem Passed.crosses {ids : List NodeId} {names : List Token} (h : Passed ids names w w') :
    Crosses ids w w' := ⟨names, h⟩

/-- The walk over a tree goes over other nodes, over the part, and over other nodes again. -/
theorem Part.split (h : Part w n w' n') :
    ∃ pre post, Crosses pre w w' ∧ Crosses post (past n' w') (past n w) ∧
      n.ids = pre ++ n'.ids ++ post := by
  have none {w : Walk} : Crosses [] w w := Passed.refl.crosses
  have last (ids : List NodeId) : ids = ids ++ [] := (List.append_nil ids).symm
  cases h with
  | grouped | operand | object | literal | evaluated | printed =>
    exact ⟨[], [], none, none, last _⟩
  | returned => exact ⟨[], [], (passed_checkReturn _ _ _).crosses, none, last _⟩
  | assigned => exact ⟨[], _, none, Passed.refer.crosses, rfl⟩
  | left | logicalLeft | owner => exact ⟨[], _, none, (passed_expr _ _).crosses, rfl⟩
  | callee | argument => exact ⟨[], _, none, (passed_exprs _ _).crosses, rfl⟩
  | test => exact ⟨[], _, none, (passed_stmt _ _).crosses, rfl⟩
  | statement => exact ⟨[], _, none, (passed_stmts _ _).crosses, rfl⟩
  | method => exact ⟨[], _, none, (passed_functions _ _).crosses, rfl⟩
  | right | logicalRight | arguments | fieldValue | nextArguments | loopBody =>
    exact ⟨_, [], (passed_expr _ _).crosses, none, last _⟩
  | nextMethods => exact ⟨_, [], (passed_function _ _ _).crosses, none, last _⟩
  | chosenBy =>
    exact ⟨[], _, none, ((passed_expr _ _).trans (passed_expr _ _)).crosses,
      List.append_assoc _ _ _⟩
  | chosenTrue => exact ⟨_, _, (passed_expr _ _).crosses, (passed_expr _ _).crosses, rfl⟩
  | chosenFalse =>
    exact ⟨_, [], ((passed_expr _ _).trans (passed_expr _ _)).crosses, none, last _⟩
  | @condition c a b =>
    cases b with
    | none => exact ⟨[], _, none, (passed_stmt _ _).crosses, rfl⟩
    | some b =>
      exact ⟨[], _, none, ((passed_stmt _ _).trans (passed_stmt _ _)).crosses,
        List.append_assoc _ _ _⟩
  | @whenTrue c a b =>
    cases b with
    | none => exact ⟨_, [], (passed_expr _ _).crosses, none, last _⟩
    | some b => exact ⟨_, _, (passed_expr _ _).crosses, (passed_stmt _ _).crosses, rfl⟩
  | whenFalse => exact ⟨_, [], ((passed_expr _ _).trans (passed_stmt _ _)).crosses, none, last _⟩

/-- The nodes of a part are nodes of the tree. -/
theorem Part.ids (h : Part w n w' n') : n'.ids.Sublist n.ids := by
  obtain ⟨pre, post, -, -, hids⟩ := h.split
  rw [hids]
  exact (List.sublist_append_right _ _).trans (List.sublist_append_left _ _)

/-- What is recorded for a node of a part is recorded while the walk is over that part. -/
theorem Part.depths (h : Part w n w' n') (hn : n.ids.Nodup) {i : NodeId} (hi : i ∈ n'.ids) :
    w'.depths[i]? = w.depths[i]? ∧ (past n' w').depths[i]? = (past n w).depths[i]? := by
  obtain ⟨pre, post, ⟨_, hpre⟩, ⟨_, hpost⟩, hids⟩ := h.split
  rw [hids] at hn
  -- the other parts do not hold the node
  have hbefore : i ∉ pre := fun hmem => List.disjoint_of_nodup_append hn.of_append_left hmem hi
  have hbehind : i ∉ post := List.disjoint_of_nodup_append hn (List.mem_append_right _ hi)
  exact ⟨hpre.depths_of_notMem hbefore, (hpost.depths_of_notMem hbehind).symm⟩

end

end Walk

/-! ### Visits -/

/-- The walk in front of a part of a tree, inside of the scopes of some constructs. -/
structure Visit where
  walk : Walk
  /-- The constructs around the part, from the innermost out. -/
  site : List Construct
  node : Node

namespace Visit

/-- The walk goes on to a part of what it came to. -/
inductive Child : Visit → Visit → Prop
  | part {w site n w' n'} (h : w.Part n w' n') : Child ⟨w, site, n⟩ ⟨w', site, n'⟩
  | initializer {w site name e} :
      Child ⟨w, site, .stmt (.varDecl name (some e))⟩ ⟨w.declare name, site, .expr e⟩
  | named {w site decl} :
      Child ⟨w, site, .stmt (.funDecl decl)⟩ ⟨w.nameFunction decl, site, .function .function decl⟩
  | rest {w site s ss} : Child ⟨w, site, .stmts (s :: ss)⟩ ⟨w.stmt s, site, .stmts ss⟩
  | block {w site body} :
      Child ⟨w, site, .stmt (.block body)⟩ ⟨w.openScope ∅, .block body :: site, .stmts body⟩
  | function {w site kind decl} :
      Child ⟨w, site, .function kind decl⟩
        ⟨w.enterFunction kind decl, .function decl :: site, .stmts decl.body⟩
  | methods {w site name decls} :
      Child ⟨w, site, .stmt (.classDecl name decls)⟩
        ⟨w.enterClass name, .methods name.lexeme decls :: site, .functions decls⟩

/-- The walk comes to every part of a tree, when it is behind the parts in front of it. -/
theorem exists_child_of_getElem? {w : Walk} {n m : Node} {i : Nat} (site : List Construct)
    (h : n.children[i]? = some m) :
    ∃ site', Child ⟨w, site, n⟩ ⟨(w.enter n).pastAll (n.children.take i), site', m⟩ := by
  cases n with
  | expr e =>
    cases e with
    | literal | «variable» | thisRef => cases h
    | group | assign | unary | get | function =>
      rcases i with _ | i <;> cases h
      exact ⟨site, .part (by constructor)⟩
    | binary | logical | call | set =>
      rcases i with _ | _ | i <;> cases h <;> exact ⟨site, .part (by constructor)⟩
    | conditional =>
      rcases i with _ | _ | _ | i <;> cases h <;> exact ⟨site, .part (by constructor)⟩
  | exprs es =>
    cases es with
    | nil => cases h
    | cons e es =>
      rcases i with _ | _ | i <;> cases h
      · exact ⟨site, .part .argument⟩
      · exact ⟨site, .part .nextArguments⟩
  | stmt s =>
    cases s with
    | expr | print =>
      rcases i with _ | i <;> cases h
      exact ⟨site, .part (by constructor)⟩
    | varDecl name e =>
      cases e with
      | none => cases h
      | some e =>
        rcases i with _ | i <;> cases h
        exact ⟨site, .initializer⟩
    | block =>
      rcases i with _ | i <;> cases h
      exact ⟨_, .block⟩
    | funDecl =>
      rcases i with _ | i <;> cases h
      exact ⟨site, .named⟩
    | classDecl =>
      rcases i with _ | i <;> cases h
      exact ⟨_, .methods⟩
    | ifElse c a b =>
      cases b with
      | none => rcases i with _ | _ | i <;> cases h <;> exact ⟨site, .part (by constructor)⟩
      | some b =>
        rcases i with _ | _ | _ | i <;> cases h <;> exact ⟨site, .part (by constructor)⟩
    | whileLoop =>
      rcases i with _ | _ | i <;> cases h <;> exact ⟨site, .part (by constructor)⟩
    | ret keyword e =>
      cases e with
      | none => cases h
      | some e =>
        rcases i with _ | i <;> cases h
        exact ⟨site, .part .returned⟩
  | stmts ss =>
    cases ss with
    | nil => cases h
    | cons s ss =>
      rcases i with _ | _ | i <;> cases h
      · exact ⟨site, .part .statement⟩
      · exact ⟨site, .rest⟩
  | function kind decl =>
    rcases i with _ | i <;> cases h
    exact ⟨_, .function⟩
  | functions decls =>
    cases decls with
    | nil => cases h
    | cons decl decls =>
      rcases i with _ | _ | i <;> cases h
      · exact ⟨site, .part .method⟩
      · exact ⟨site, .part .nextMethods⟩

/-- There is a step of the walk to every part. -/
theorem exists_child {v : Visit} {part : Node} (h : part ∈ v.node.children) :
    ∃ u, v.Child u ∧ u.node = part := by
  obtain ⟨i, hi⟩ := List.mem_iff_getElem?.1 h
  obtain ⟨site, hchild⟩ := exists_child_of_getElem? (w := v.walk) v.site hi
  exact ⟨_, hchild, rfl⟩

/-- The walk comes from one visit to another. -/
def Below : Visit → Visit → Prop := Relation.ReflTransGen Child

/-- No step down the tree. -/
theorem Below.refl (v : Visit) : v.Below v := Relation.ReflTransGen.refl

/-- One more step down the tree. -/
theorem Below.child {v u t : Visit} (h : v.Below u) (h' : u.Child t) : v.Below t :=
  Relation.ReflTransGen.tail h h'

/-! ### What every visit satisfies -/

/-- A visit of a well-formed part of a tree, with one scope for each construct around it. -/
structure Lawful (T : Token → Prop) (v : Visit) : Prop where
  formed : v.node.Formed T
  nodup : v.node.ids.Nodup
  level : v.walk.owners.length = v.site.length
  named : v.walk.owners.Named

variable {T : Token → Prop} {v u : Visit}

/-- A step of the walk goes to a part. -/
theorem Child.mem_children (h : v.Child u) : u.node ∈ v.node.children := by
  cases h with
  | part h => exact h.mem_children
  | rest => exact List.mem_cons_of_mem _ List.mem_cons_self
  | initializer | named | block | function | methods => exact List.mem_cons_self

/-- The nodes of the part that a step goes to are nodes of the tree. -/
theorem Child.ids (h : v.Child u) : u.node.ids.Sublist v.node.ids := by
  cases h with
  | part h => exact h.ids
  | rest => exact List.sublist_append_right _ _
  | @function w site kind decl =>
    cases decl
    exact List.Sublist.refl _
  | initializer | named | block | methods => exact List.Sublist.refl _

/-- The walk in front of a program. -/
theorem Lawful.start {depths : Depths} {report : Report} {ss : List Stmt}
    (hf : Stmt.FormedAll T ss) (hn : (Stmt.idsAll ss).Nodup) :
    Lawful T ⟨Resolution.start depths report, [], .stmts ss⟩ :=
  ⟨hf, hn, rfl, fun _ h => absurd h List.not_mem_nil⟩

/-- One step keeps `Lawful`: a construct that the walk enters opens one scope. -/
theorem Lawful.child (hv : v.Lawful T) (h : v.Child u) : u.Lawful T := by
  obtain ⟨hformed, hnodup, hlevel, hnamed⟩ := hv
  suffices howners : u.walk.owners.length = u.site.length ∧ u.walk.owners.Named from
    ⟨hformed.of_mem_children h.mem_children, hnodup.sublist h.ids, howners.1, howners.2⟩
  cases h with
  | part h =>
    rw [h.owners hformed]
    exact ⟨hlevel, hnamed⟩
  | initializer =>
    rw [Walk.owners_declare, Owners.length_declare]
    exact ⟨hlevel, hnamed.declare _⟩
  | named =>
    rw [(Walk.passed_nameFunction _ _).owners_eq, Owners.length_foldl_declare]
    exact ⟨hlevel, hnamed.foldl_declare _⟩
  | rest =>
    rw [Walk.owners_stmt, Owners.length_foldl_declare]
    exact ⟨hlevel, hnamed.foldl_declare _⟩
  | block =>
    rw [Walk.owners_openBlock]
    exact ⟨congrArg (· + 1) hlevel, hnamed.cons fun _ _ h => absurd h (by simp)⟩
  | function =>
    rw [Walk.owners_enterFunction, Owners.length_foldl_declare]
    exact ⟨congrArg (· + 1) hlevel,
      (hnamed.cons fun _ _ h => absurd h (by simp)).foldl_declare _⟩
  | methods =>
    rw [Walk.owners_enterClass, List.length_cons, Owners.length_declare]
    refine ⟨congrArg (· + 1) hlevel, (hnamed.declare _).cons fun x token h => ?_⟩
    unfold Walk.thisOwner at h
    split at h
    · next hx =>
      cases h
      exact hx.symm
    · cases h

/-- All visits below a lawful one are lawful. -/
theorem Lawful.below (hv : v.Lawful T) (h : v.Below u) : u.Lawful T := by
  induction h with
  | refl => exact hv
  | tail _ hc ih => exact ih.child hc

end Visit

/-! ### Recorded depths -/

/-- A node that refers to a variable. -/
inductive Node.Refers : Node → NodeId → Token → Prop
  | name {id name} : Refers (.expr (.variable id name)) id name
  | this {id keyword} : Refers (.expr (.thisRef id keyword)) id keyword
  | assign {id name e} : Refers (.expr (.assign id name e)) id name

/-- The number of a node that names a variable is among its numbers. -/
theorem Node.Refers.mem_ids {n : Node} {id : NodeId} {name : Token} (h : n.Refers id name) :
    id ∈ n.ids := by
  cases h with
  | name | this => exact List.mem_singleton_self id
  | assign => exact List.mem_append_right _ (List.mem_singleton_self id)

namespace Visit

variable {T : Token → Prop} {v u : Visit}

/-- The nodes of what is below are nodes of the tree. -/
theorem Below.ids (h : v.Below u) : u.node.ids.Sublist v.node.ids := by
  induction h with
  | refl => exact List.Sublist.refl _
  | tail _ hc ih => exact hc.ids.trans ih

/-- What is recorded for a node of a child is recorded while the walk is over that child. -/
theorem Child.depths (h : v.Child u) (hn : v.node.ids.Nodup) {i : NodeId}
    (hi : i ∈ u.node.ids) :
    u.walk.depths[i]? = v.walk.depths[i]? ∧
      (u.walk.past u.node).depths[i]? = (v.walk.past v.node).depths[i]? := by
  cases h with
  | part h => exact h.depths hn hi
  | initializer =>
    exact ⟨by rw [(Walk.onlyScopes_declare _ _).depths],
      congrArg (·[i]?) (Walk.onlyScopes_define _ _).depths.symm⟩
  | @named w site decl =>
    refine ⟨?_, rfl⟩
    unfold Walk.nameFunction
    split
    · rw [(Walk.onlyScopes_introduce _ _).depths]
    · rfl
  | rest =>
    have hs := fun h => List.disjoint_of_nodup_append hn h hi
    exact ⟨Walk.depths_stmt _ _ hs, rfl⟩
  | block => exact ⟨rfl, congrArg (·[i]?) (Walk.onlyScopes_closeScope _).depths.symm⟩
  | @function w site kind decl =>
    cases decl
    refine ⟨?_, congrArg (·[i]?) (Walk.onlyScopes_closeScope _).depths.symm⟩
    exact (Walk.passed_foldl_introduce _ _).depths_of_notMem List.not_mem_nil
  | methods =>
    refine ⟨?_, congrArg (·[i]?) (Walk.onlyScopes_closeScope _).depths.symm⟩
    unfold Walk.enterClass
    rw [Walk.openScope, (Walk.onlyScopes_introduce _ _).depths]

section

variable {w : Walk} {id : NodeId} {name : Token} {e : Expr}

/-- For a name that is read, its distance is recorded. -/
theorem depths_past_variable (hfresh : w.depths[id]? = none) :
    (w.past (.expr (.variable id name))).depths[id]? = w.depth? name.lexeme := by
  show (Walk.read (if _ then _ else _) id name).depths[id]? = _
  rw [Walk.depths_read, if_pos rfl]
  -- A complaint about the name does not keep its depth from being recorded.
  split
  · rw [Walk.complain, hfresh, Option.or_none]
    rfl
  · rw [hfresh, Option.or_none]

/-- For a name that is assigned to, its distance is recorded when the value is over. -/
theorem depths_past_assign (hn : (Node.expr (.assign id name e)).ids.Nodup)
    (hfresh : w.depths[id]? = none) :
    (w.past (.expr (.assign id name e))).depths[id]? = (w.expr e).depth? name.lexeme := by
  have hvalue : id ∉ e.ids := fun hmem =>
    List.disjoint_of_nodup_append hn hmem (List.mem_singleton_self id)
  show ((w.expr e).refer id name).depths[id]? = _
  rw [Walk.depths_refer, if_pos rfl, Walk.depths_expr e w hvalue, hfresh, Option.or_none]

/-- For `this`, its distance is recorded only in a class. -/
theorem depths_past_thisRef (hfresh : w.depths[id]? = none) :
    (w.past (.expr (.thisRef id name))).depths[id]? =
      if w.inClass then w.depth? name.lexeme else none := by
  show (if w.inClass = true then w.read id name else w.complain name _).depths[id]? = _
  split
  · rw [Walk.depths_read, if_pos rfl, hfresh, Option.or_none]
  · rw [Walk.complain, hfresh]

end

/-- A node records the distance of its name, or nothing. -/
theorem depth?_of_refers {w : Walk} {n : Node} {id : NodeId} {name : Token} {d : Nat}
    (h : n.Refers id name) (hn : n.ids.Nodup) (hfresh : w.depths[id]? = none)
    (hd : (w.past n).depths[id]? = some d) : w.depth? name.lexeme = some d := by
  cases h with
  | name => exact (depths_past_variable hfresh).symm.trans hd
  | this =>
    rw [depths_past_thisRef hfresh] at hd
    split at hd
    · exact hd
    · cases hd
  | assign =>
    rw [depths_past_assign hn hfresh, Walk.depth?_eq, Walk.owners_expr, ← Walk.depth?_eq] at hd
    exact hd

/-- **Recorded depths are distances.** The depth that the walk over a tree records for a node in
    it is the distance of the node's name at the visit of the node. -/
theorem depth?_of_recorded {id : NodeId} {name : Token} {d : Nat} (h : v.Below u)
    (hv : v.Lawful T) (hu : u.node.Refers id name) (hfresh : v.walk.depths[id]? = none)
    (hd : (v.walk.past v.node).depths[id]? = some d) :
    u.walk.depth? name.lexeme = some d := by
  -- From the whole tree down: a child of the tree has all that is recorded for its own nodes.
  induction h using Relation.ReflTransGen.head_induction_on with
  | refl => exact depth?_of_refers hu hv.nodup hfresh hd
  | head hc hbelow ih =>
    obtain ⟨hbefore, hbehind⟩ := hc.depths hv.nodup ((Below.ids hbelow).subset hu.mem_ids)
    exact ih (hv.child hc) (hbefore.trans hfresh) (hbehind.trans hd)

/-! ### Tables of recorded depths -/

/-- A table holds what the walk over a part of a tree records for the nodes in it. -/
structure Told (table : Depths) (v : Visit) : Prop where
  nodup : v.node.ids.Nodup
  fresh : ∀ i ∈ v.node.ids, v.walk.depths[i]? = none
  told : ∀ i ∈ v.node.ids, table[i]? = (v.walk.past v.node).depths[i]?

namespace Told

variable {table : Depths} {w : Walk} {site : List Construct} {id : NodeId}
  {name : Token} {e : Expr}

/-- One step keeps `Told`: what is recorded for a part is not changed behind it. -/
theorem child (h : v.Told table) (hc : v.Child u) : u.Told table := by
  have hmem : ∀ i ∈ u.node.ids, i ∈ v.node.ids := fun i hi => hc.ids.subset hi
  refine ⟨h.nodup.sublist hc.ids, fun i hi => ?_, fun i hi => ?_⟩
  · rw [(hc.depths h.nodup hi).1, h.fresh i (hmem i hi)]
  · rw [(hc.depths h.nodup hi).2, h.told i (hmem i hi)]

/-- The table holds what is recorded for everything below. -/
theorem below (h : v.Told table) (hb : v.Below u) : u.Told table := by
  induction hb with
  | refl => exact h
  | tail _ hc ih => exact ih.child hc

/-- What the table holds for a node that names a variable, for which nothing was recorded before. -/
theorem recorded (h : v.Told table) (hn : v.node.Refers id name) :
    v.walk.depths[id]? = none ∧ table[id]? = (v.walk.past v.node).depths[id]? :=
  ⟨h.fresh id hn.mem_ids, h.told id hn.mem_ids⟩

/-- The distance of a name that is read. -/
theorem read (h : Told table ⟨w, site, .expr (.variable id name)⟩) :
    table[id]? = w.depth? name.lexeme := by
  obtain ⟨hfresh, htold⟩ := h.recorded .name
  exact htold.trans (depths_past_variable hfresh)

/-- The distance of a name that is assigned to, when the value is over. -/
theorem assign (h : Told table ⟨w, site, .expr (.assign id name e)⟩) :
    table[id]? = (w.expr e).depth? name.lexeme := by
  obtain ⟨hfresh, htold⟩ := h.recorded .assign
  exact htold.trans (depths_past_assign h.nodup hfresh)

/-- The distance of `this`, which is looked up only in a class. -/
theorem thisRef (h : Told table ⟨w, site, .expr (.thisRef id name)⟩) :
    table[id]? = if w.inClass then w.depth? name.lexeme else none := by
  obtain ⟨hfresh, htold⟩ := h.recorded .this
  exact htold.trans (depths_past_thisRef hfresh)

end Told

end Visit

end Scriptlet

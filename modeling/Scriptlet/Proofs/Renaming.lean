import Mathlib.Logic.Equiv.Basic
import Scriptlet.Proofs.Tree

namespace Scriptlet

/-!
# Renaming a local variable

A variable or parameter of a local scope gets another name, together with the nodes that are
resolved to it.

* `Node.variables` — the variables and parameters that a part of a tree declares in the scope it
  opens.
* `Renaming` — one name is exchanged for another one in one scope, and in the nodes whose recorded
  depth leads there; `Renaming.stmts` and its kin carry it out.
* `Renaming.at?_node`, `Renaming.variables_node` — what becomes of the scope.
* `Renaming.name` — the names of a scope before and after, as a function on names.
-/

/-! ### Declared variables -/

/-- The variable that a statement declares. -/
def Stmt.variableName? : Stmt → Option Token
  | .varDecl name _ => some name
  | _ => none

/-- The function or class that a statement declares. -/
def Stmt.definition? : Stmt → Option Token
  | .funDecl decl => decl.name?
  | .classDecl name _ => some name
  | _ => none

variable {s : Stmt} {t : Token} {T : Token → Prop}

/-- A variable that a statement declares is among all that it declares. -/
theorem Stmt.mem_declared_of_variableName? (h : s.variableName? = some t) : t ∈ s.declared := by
  cases s with
  | varDecl name init =>
    cases h
    exact List.mem_singleton_self _
  | _ => cases h

/-- A function or class that a statement declares is among all that it declares. -/
theorem Stmt.mem_declared_of_definition? (h : s.definition? = some t) : t ∈ s.declared := by
  cases s with
  | funDecl decl => exact Option.mem_toList.2 h
  | classDecl name methods =>
    cases h
    exact List.mem_singleton_self _
  | _ => cases h

/-- A statement that declares a function or class declares no variable. -/
theorem Stmt.variableName?_eq_none_of_definition? (h : s.definition? = some t) :
    s.variableName? = none := by
  cases s with
  | varDecl => cases h
  | _ => rfl

/-- What holds of the tokens of a statement holds of the name that it defines. -/
theorem Stmt.holds_of_definition? (hs : s.Formed T) (h : s.definition? = some t) : T t := by
  cases s with
  | funDecl decl =>
    cases decl
    exact (hs.1.1 t h).1
  | classDecl name methods =>
    cases h
    exact hs.1.1
  | _ => cases h

/-- The statements of a well-formed list are well formed. -/
theorem Stmt.formed_of_mem {ss : List Stmt} (h : Stmt.FormedAll T ss) (hs : s ∈ ss) :
    s.Formed T := by
  induction ss with
  | nil => cases hs
  | cons s' ss ih =>
    rcases List.mem_cons.1 hs with rfl | hs
    · exact h.1
    · exact ih h.2 hs

/-- The variables and parameters that a part of a tree declares in the scope it opens. -/
def Node.variables : Node → List Token
  | .stmt (.block body) => body.filterMap Stmt.variableName?
  | .function _ decl => decl.params ++ decl.body.filterMap Stmt.variableName?
  | _ => []

/-! ### The renamed program -/

/-- The way to a scope from a part of a tree, if the scope is inside of it. -/
abbrev Way := Option (List Nat)

namespace Way

/-- The way from one of the parts. -/
def into (way : Way) (i : Nat) : Way :=
  match way with
  | some (j :: path) => if j = i then some path else none
  | _ => none

/-- Whether the scope is the one that is opened right here. -/
def isHere (way : Way) : Bool := way = some []

/-- A way that goes on from the `i`-th part leads there first. -/
theorem eq_of_into {way : Way} {i : Nat} {path : List Nat} (h : way.into i = some path) :
    way = some (i :: path) := by
  unfold into at h
  split at h
  · next j rest =>
    split at h
    · next hj => rw [hj, Option.some.inj h]
    · cases h
  · cases h

end Way

/-- A name that is exchanged for another one in a scope, in a program with the given depths. -/
structure Renaming where
  old : String
  new : String
  depths : Depths

namespace Renaming

variable (r : Renaming)

/-- A name of a scope; only that of a marked scope is exchanged. -/
def token (marked : Bool) (t : Token) : Token :=
  if marked ∧ t.lexeme = r.old then { t with lexeme := r.new } else t

/-- The name of a node inside of scopes that are marked or not, the innermost first: it is one of
    the scope that the recorded depth leads to. -/
def reference (around : List Bool) (id : NodeId) (t : Token) : Token :=
  match r.depths[id]? with
  | some d => r.token (around[d]?.getD false) t
  | none => t

mutual

/-- An expression, the name exchanged in the scope at the end of the way. -/
def expr (around : List Bool) (way : Way) : Expr → Expr
  | .literal value => .literal value
  | .group e => .group (expr around (way.into 0) e)
  | .variable id name => .variable id (r.reference around id name)
  | .thisRef id keyword => .thisRef id keyword
  | .assign id name e => .assign id (r.reference around id name) (expr around (way.into 0) e)
  | .unary op e => .unary op (expr around (way.into 0) e)
  | .binary a op b => .binary (expr around (way.into 0) a) op (expr around (way.into 1) b)
  | .logical a op b => .logical (expr around (way.into 0) a) op (expr around (way.into 1) b)
  | .conditional c q a b =>
    .conditional (expr around (way.into 0) c) q (expr around (way.into 1) a)
      (expr around (way.into 2) b)
  | .call e paren es => .call (expr around (way.into 0) e) paren (exprs around (way.into 1) es)
  | .get e name => .get (expr around (way.into 0) e) name
  | .set a name b => .set (expr around (way.into 0) a) name (expr around (way.into 1) b)
  | .function decl => .function (function around (way.into 0) decl)

def exprs (around : List Bool) (way : Way) : List Expr → List Expr
  | [] => []
  | e :: es => expr around (way.into 0) e :: exprs around (way.into 1) es

/-- A statement, the name exchanged in the scope at the end of the way. -/
def stmt (around : List Bool) (way : Way) : Stmt → Stmt
  | .expr e => .expr (expr around (way.into 0) e)
  | .print e => .print (expr around (way.into 0) e)
  | .varDecl name none => .varDecl (r.token (around.headD false) name) none
  | .varDecl name (some e) =>
    .varDecl (r.token (around.headD false) name) (some (expr around (way.into 0) e))
  | .block body => .block (stmts (way.isHere :: around) (way.into 0) body)
  | .ifElse c a none => .ifElse (expr around (way.into 0) c) (stmt around (way.into 1) a) none
  | .ifElse c a (some b) =>
    .ifElse (expr around (way.into 0) c) (stmt around (way.into 1) a)
      (some (stmt around (way.into 2) b))
  | .whileLoop c a => .whileLoop (expr around (way.into 0) c) (stmt around (way.into 1) a)
  | .funDecl decl => .funDecl (function around (way.into 0) decl)
  | .ret keyword none => .ret keyword none
  | .ret keyword (some e) => .ret keyword (some (expr around (way.into 0) e))
  | .classDecl name methods => .classDecl name (functions (false :: around) (way.into 0) methods)

def stmts (around : List Bool) (way : Way) : List Stmt → List Stmt
  | [] => []
  | s :: ss => stmt around (way.into 0) s :: stmts around (way.into 1) ss

/-- A function: its parameters and its body share one scope. -/
def function (around : List Bool) (way : Way) : FunDecl → FunDecl
  | .mk name? params body =>
    .mk name? (params.map (r.token way.isHere)) (stmts (way.isHere :: around) (way.into 0) body)

def functions (around : List Bool) (way : Way) : List FunDecl → List FunDecl
  | [] => []
  | f :: fs => function around (way.into 0) f :: functions around (way.into 1) fs

end

/-- A program, the name exchanged in the scope at the end of a way. Globals keep their names. -/
def program (path : List Nat) (ss : List Stmt) : List Stmt := r.stmts [] (some path) ss

/-- A part of a tree, the name exchanged in the scope at the end of the way. -/
def node (around : List Bool) (way : Way) : Node → Node
  | .expr e => .expr (r.expr around way e)
  | .exprs es => .exprs (r.exprs around way es)
  | .stmt s => .stmt (r.stmt around way s)
  | .stmts ss => .stmts (r.stmts around way ss)
  | .function kind decl => .function kind (r.function around way decl)
  | .functions decls => .functions (r.functions around way decls)

/-- The marks of the scopes around the parts of a part of a tree. -/
def inside (around : List Bool) (way : Way) : Node → List Bool
  | .stmt (.block _) => way.isHere :: around
  | .stmt (.classDecl _ _) => false :: around
  | .function _ _ => way.isHere :: around
  | _ => around

/-! ### Where the name is exchanged -/

section

variable (around : List Bool) (way : Way)

/-- Functions keep their names. -/
theorem name?_function (f : FunDecl) :
    (r.function around way f).name? = f.name? := by
  cases f
  rfl

/-- By `name?_function`, initializers stay initializers. -/
theorem methodBody_function (f : FunDecl) :
    Walk.methodBody (r.function around way f) = Walk.methodBody f := by
  cases f
  rfl

/-- `Renaming.node` renames part by part, so that it goes along with `Node.at?`. -/
theorem children_node (n : Node) :
    (r.node around way n).children =
      n.children.mapIdx fun i m => r.node (inside around way n) (way.into i) m := by
  cases n with
  | expr e => cases e <;> rfl
  | exprs es => cases es <;> rfl
  | stmt s =>
    cases s with
    | varDecl name init => cases init <;> rfl
    | ifElse c a b => cases b <;> rfl
    | ret keyword e => cases e <;> rfl
    | _ => rfl
  | stmts ss => cases ss <;> rfl
  | function kind decl => cases decl; rfl
  | functions fs =>
    cases fs with
    | nil => rfl
    | cons f fs =>
      show [Node.function (Walk.methodBody (r.function around (way.into 0) f)) _, _] = _
      rw [methodBody_function]
      rfl

/-- A declared variable is renamed if the innermost scope is marked. -/
theorem variableName?_stmt (s : Stmt) :
    (r.stmt around way s).variableName? = s.variableName?.map (r.token (around.headD false)) := by
  cases s with
  | varDecl name init => cases init <;> rfl
  | ifElse c a b => cases b <;> rfl
  | ret keyword e => cases e <;> rfl
  | _ => rfl

/-- `variableName?_stmt` for all variables of a body. -/
theorem filterMap_stmts (ss : List Stmt) :
    (r.stmts around way ss).filterMap Stmt.variableName? =
      (ss.filterMap Stmt.variableName?).map (r.token (around.headD false)) := by
  induction ss generalizing way with
  | nil => rfl
  | cons s ss ih =>
    rw [stmts, List.filterMap_cons, List.filterMap_cons, variableName?_stmt, ih]
    cases s.variableName? <;> rfl

end

/-- The way leads to the same place in the renamed tree, and the name is exchanged there. -/
theorem at?_node (around : List Bool) (n : Node) (path : List Nat) {scope : Node}
    (h : n.at? path = some scope) :
    ∃ around', (r.node around (some path) n).at? path =
      some (r.node around' (some []) scope) := by
  induction path generalizing around n with
  | nil =>
    cases h
    exact ⟨around, rfl⟩
  | cons i path ih =>
    obtain ⟨m, hm, hscope⟩ := Option.bind_eq_some_iff.1 h
    obtain ⟨around', hat⟩ := ih (inside around (some (i :: path)) n) m hscope
    refine ⟨around', ?_⟩
    have hway : Way.into (some (i :: path)) i = some path := if_pos rfl
    rw [Node.at?, children_node, List.getElem?_mapIdx, hm, Option.map_some, Option.bind_some, hway]
    exact hat

/-- The variables of the scope in which the name is exchanged. -/
theorem variables_node (around : List Bool) (n : Node) :
    (r.node around (some []) n).variables = n.variables.map (r.token true) := by
  cases n with
  | stmt s =>
    cases s with
    | block body => exact filterMap_stmts r (true :: around) _ body
    | varDecl name init => cases init <;> rfl
    | ifElse c a b => cases b <;> rfl
    | ret keyword e => cases e <;> rfl
    | _ => rfl
  | function kind decl =>
    cases decl with
    | mk name? params body =>
      show params.map (r.token true) ++ (r.stmts (true :: around) _ body).filterMap _ = _
      rw [filterMap_stmts, Node.variables, List.map_append]
      rfl
  | _ => rfl

/-! ### Names of scopes -/

/-- The name that stands for `x` in a scope. In a marked scope both names change places, so that
    different names stay different. -/
def name (marked : Bool) (x : String) : String :=
  if marked then Equiv.swap r.old r.new x else x

/-- The names change places, so that twice is not at all. -/
theorem name_name (marked : Bool) (x : String) : r.name marked (r.name marked x) = x := by
  cases marked with
  | false => rfl
  | true => exact Equiv.swap_apply_self r.old r.new x

/-- Other names stay. -/
theorem name_of_ne {marked : Bool} {x : String} (hold : x ≠ r.old) (hnew : x ≠ r.new) :
    r.name marked x = x := by
  cases marked with
  | false => rfl
  | true => exact Equiv.swap_apply_of_ne_of_ne hold hnew

variable {r}

/-- `Renaming.token` renames by `Renaming.name`, if the new name was not used before. -/
theorem lexeme_token {t : Token} (h : t.lexeme ≠ r.new) (marked : Bool) :
    (r.token marked t).lexeme = r.name marked t.lexeme := by
  cases marked with
  | false => rfl
  | true =>
    unfold token
    by_cases hold : t.lexeme = r.old
    · rw [if_pos ⟨rfl, hold⟩, hold]
      exact (Equiv.swap_apply_left r.old r.new).symm
    · rw [if_neg fun hand => hold hand.2, r.name_of_ne hold h]

/-- What a name other than the new one can become in two scopes. -/
theorem name_name_eq_or {x : String} (hx : x ≠ r.new) (marked marked' : Bool) :
    r.name marked (r.name marked' x) = x ∨ r.name marked (r.name marked' x) = r.new := by
  by_cases hold : x = r.old
  · subst hold
    have hswap : Equiv.swap r.old r.new r.old = r.new := Equiv.swap_apply_left r.old r.new
    cases marked with
    | false =>
      cases marked' with
      | false => exact .inl rfl
      | true => exact .inr hswap
    | true =>
      cases marked' with
      | false => exact .inr hswap
      | true => exact .inl (r.name_name true r.old)
  · rw [r.name_of_ne hold hx, r.name_of_ne hold hx]
    exact .inl rfl

variable (r)

/-- The name that stands for `x` where it is found at some distance, or nowhere. -/
def nameAt (around : List Bool) (d : Option Nat) (x : String) : String :=
  match d with
  | some d => r.name (around[d]?.getD false) x
  | none => x

/-- `nameAt` is `name` in a scope that is marked or not. -/
theorem exists_nameAt (around : List Bool) (d : Option Nat) (x : String) :
    ∃ marked, r.nameAt around d x = r.name marked x := by
  cases d with
  | none => exact ⟨false, rfl⟩
  | some d => exact ⟨_, rfl⟩

/-- `Renaming.reference` renames by `nameAt`, at the depth that is recorded. -/
theorem lexeme_reference {around : List Bool} {id : NodeId} {t : Token} (h : t.lexeme ≠ r.new) :
    (r.reference around id t).lexeme = r.nameAt around r.depths[id]? t.lexeme := by
  unfold reference nameAt
  cases r.depths[id]? with
  | none => rfl
  | some d => exact lexeme_token h _

end Renaming

end Scriptlet

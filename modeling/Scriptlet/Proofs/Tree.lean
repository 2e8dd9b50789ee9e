import Mathlib.Data.List.Nodup
import Scriptlet.Proofs.Progress
import Scriptlet.Resolution

namespace Scriptlet

/-!
# Trees and their parts

What the reader of a program may rely on when it is handed a tree.

* `Node` — a part of a tree: whatever one function of the resolution walk goes over;
  `Node.children` — the parts that it is made of; `Node.at?` — a part by the way to it.
* `Node.ids` — the numbers of the variable nodes in it.
* `Stmt.declared` — the names that a statement declares in the scope it stands in.
* `Node.Formed T` — names are names, operators are operators, declarations stand only in lists of
  statements, and every token that was kept satisfies `T`.
* `Node.induct` — induction on the parts of a tree.
-/

/-! ### Parts of a tree -/

/-- A part of a tree. -/
inductive Node where
  | expr (e : Expr)
  | exprs (es : List Expr)
  | stmt (s : Stmt)
  | stmts (ss : List Stmt)
  | function (kind : Body) (decl : FunDecl)
  | functions (decls : List FunDecl)

/-- The parts that a part of a tree is made of. -/
def Node.children : Node → List Node
  | .expr (.group e) => [.expr e]
  | .expr (.assign _ _ e) => [.expr e]
  | .expr (.unary _ e) => [.expr e]
  | .expr (.binary a _ b) => [.expr a, .expr b]
  | .expr (.logical a _ b) => [.expr a, .expr b]
  | .expr (.conditional c _ a b) => [.expr c, .expr a, .expr b]
  | .expr (.call e _ es) => [.expr e, .exprs es]
  | .expr (.get e _) => [.expr e]
  | .expr (.set a _ b) => [.expr a, .expr b]
  | .expr (.function decl) => [.function .function decl]
  | .exprs (e :: es) => [.expr e, .exprs es]
  | .stmt (.expr e) => [.expr e]
  | .stmt (.print e) => [.expr e]
  | .stmt (.varDecl _ (some e)) => [.expr e]
  | .stmt (.block body) => [.stmts body]
  | .stmt (.ifElse c a none) => [.expr c, .stmt a]
  | .stmt (.ifElse c a (some b)) => [.expr c, .stmt a, .stmt b]
  | .stmt (.whileLoop c a) => [.expr c, .stmt a]
  | .stmt (.funDecl decl) => [.function .function decl]
  | .stmt (.ret _ (some e)) => [.expr e]
  | .stmt (.classDecl _ methods) => [.functions methods]
  | .stmts (s :: ss) => [.stmt s, .stmts ss]
  | .function _ decl => [.stmts decl.body]
  | .functions (f :: fs) => [.function (Walk.methodBody f) f, .functions fs]
  | _ => []

/-- The part that one comes to by going to one of the parts again and again. -/
def Node.at? (n : Node) : List Nat → Option Node
  | [] => some n
  | i :: path => n.children[i]?.bind (·.at? path)

/-! ### Numbers of variable nodes -/

mutual

/-- The numbers of the variable nodes of an expression. -/
def Expr.ids : Expr → List NodeId
  | .literal _ => []
  | .group inner => inner.ids
  | .variable id _ => [id]
  | .thisRef id _ => [id]
  | .assign id _ value => value.ids ++ [id]
  | .unary _ operand => operand.ids
  | .binary left _ right => left.ids ++ right.ids
  | .logical left _ right => left.ids ++ right.ids
  | .conditional condition _ whenTrue whenFalse =>
    condition.ids ++ whenTrue.ids ++ whenFalse.ids
  | .call callee _ arguments => callee.ids ++ Expr.idsAll arguments
  | .get object _ => object.ids
  | .set object _ value => object.ids ++ value.ids
  | .function decl => decl.ids

def Expr.idsAll : List Expr → List NodeId
  | [] => []
  | e :: es => e.ids ++ Expr.idsAll es

def Stmt.ids : Stmt → List NodeId
  | .expr e => e.ids
  | .print e => e.ids
  | .varDecl _ none => []
  | .varDecl _ (some e) => e.ids
  | .block body => Stmt.idsAll body
  | .ifElse condition whenTrue none => condition.ids ++ whenTrue.ids
  | .ifElse condition whenTrue (some whenFalse) =>
    condition.ids ++ whenTrue.ids ++ whenFalse.ids
  | .whileLoop condition body => condition.ids ++ body.ids
  | .funDecl decl => decl.ids
  | .ret _ none => []
  | .ret _ (some e) => e.ids
  | .classDecl _ methods => FunDecl.idsAll methods

def Stmt.idsAll : List Stmt → List NodeId
  | [] => []
  | s :: ss => s.ids ++ Stmt.idsAll ss

def FunDecl.ids : FunDecl → List NodeId
  | .mk _ _ body => Stmt.idsAll body

def FunDecl.idsAll : List FunDecl → List NodeId
  | [] => []
  | f :: fs => f.ids ++ FunDecl.idsAll fs

end

/-- The numbers of the variable nodes in a part of a tree. -/
def Node.ids : Node → List NodeId
  | .expr e => e.ids
  | .exprs es => Expr.idsAll es
  | .stmt s => s.ids
  | .stmts ss => Stmt.idsAll ss
  | .function _ decl => decl.ids
  | .functions decls => FunDecl.idsAll decls

theorem Stmt.idsAll_append (ss ss' : List Stmt) :
    Stmt.idsAll (ss ++ ss') = Stmt.idsAll ss ++ Stmt.idsAll ss' := by
  induction ss with
  | nil => rfl
  | cons s ss ih => rw [List.cons_append, Stmt.idsAll, ih, Stmt.idsAll, List.append_assoc]

/-! ### Declared names -/

namespace Stmt

/-- A statement that declares a name. -/
def isDeclaration : Stmt → Bool
  | .varDecl _ _ => true
  | .funDecl _ => true
  | .classDecl _ _ => true
  | _ => false

/-- The names that a statement declares in the scope it stands in, in this order. Blocks and
    functions have scopes of their own; branches and bodies of loops have none. -/
def declared : Stmt → List Token
  | .varDecl name _ => [name]
  | .funDecl decl => decl.name?.toList
  | .classDecl name _ => [name]
  | .ifElse _ whenTrue none => whenTrue.declared
  | .ifElse _ whenTrue (some whenFalse) => whenTrue.declared ++ whenFalse.declared
  | .whileLoop _ body => body.declared
  | _ => []

end Stmt

/-! ### Well-formed trees -/

/-- A name that satisfies `T`. -/
def Token.IsName (T : Token → Prop) (t : Token) : Prop := T t ∧ t.isIdentifier = true

/-- One of some symbols, which satisfies `T`. -/
def Token.IsOneOf (T : Token → Prop) (t : Token) (symbols : List Symbol) : Prop :=
  T t ∧ ∃ s ∈ symbols, t.is s = true

/-- The operators of binary expressions. -/
def Symbol.binaryOperators : List Symbol :=
  [.comma, .plus, .minus, .star, .slash, .greater, .greaterEqual, .less, .lessEqual, .equalEqual,
    .bangEqual]

section

variable (T : Token → Prop)

mutual

/-- An expression whose tokens are what its nodes ask for. -/
def Expr.Formed : Expr → Prop
  | .literal _ => True
  | .group inner => inner.Formed
  | .variable _ name => name.IsName T
  | .thisRef _ keyword => keyword.IsOneOf T [.thisKw]
  | .assign _ name value => name.IsName T ∧ value.Formed
  | .unary op operand => op.IsOneOf T [.bang, .minus] ∧ operand.Formed
  | .binary left op right =>
    left.Formed ∧ op.IsOneOf T Symbol.binaryOperators ∧ right.Formed
  | .logical left op right => left.Formed ∧ op.IsOneOf T [.orKw, .andKw] ∧ right.Formed
  | .conditional condition question whenTrue whenFalse =>
    condition.Formed ∧ question.IsOneOf T [.question] ∧ whenTrue.Formed ∧ whenFalse.Formed
  | .call callee paren arguments =>
    callee.Formed ∧ paren.IsOneOf T [.rightParen] ∧ Expr.FormedAll arguments
  | .get object name => object.Formed ∧ name.IsName T
  | .set object name value => object.Formed ∧ name.IsName T ∧ value.Formed
  | .function decl => decl.Formed

def Expr.FormedAll : List Expr → Prop
  | [] => True
  | e :: es => e.Formed ∧ Expr.FormedAll es

/-- A statement in which declarations stand only in lists of statements. -/
def Stmt.Formed : Stmt → Prop
  | .expr e => e.Formed
  | .print e => e.Formed
  | .varDecl name none => name.IsName T
  | .varDecl name (some e) => name.IsName T ∧ e.Formed
  | .block body => Stmt.FormedAll body
  | .ifElse condition whenTrue none =>
    condition.Formed ∧ whenTrue.Formed ∧ whenTrue.isDeclaration = false
  | .ifElse condition whenTrue (some whenFalse) =>
    condition.Formed ∧ (whenTrue.Formed ∧ whenTrue.isDeclaration = false) ∧
      whenFalse.Formed ∧ whenFalse.isDeclaration = false
  | .whileLoop condition body => condition.Formed ∧ body.Formed ∧ body.isDeclaration = false
  | .funDecl decl => decl.Formed ∧ decl.name?.isSome = true
  | .ret keyword none => keyword.IsOneOf T [.returnKw]
  | .ret keyword (some e) => keyword.IsOneOf T [.returnKw] ∧ e.Formed
  | .classDecl name methods =>
    name.IsName T ∧ FunDecl.FormedAll methods ∧ ∀ f ∈ methods, f.name?.isSome = true

def Stmt.FormedAll : List Stmt → Prop
  | [] => True
  | s :: ss => s.Formed ∧ Stmt.FormedAll ss

def FunDecl.Formed : FunDecl → Prop
  | .mk name? params body =>
    (∀ name ∈ name?, name.IsName T) ∧ (∀ p ∈ params, p.IsName T) ∧ Stmt.FormedAll body

def FunDecl.FormedAll : List FunDecl → Prop
  | [] => True
  | f :: fs => f.Formed ∧ FunDecl.FormedAll fs

end

/-- A well-formed part of a tree. -/
def Node.Formed : Node → Prop
  | .expr e => e.Formed T
  | .exprs es => Expr.FormedAll T es
  | .stmt s => s.Formed T
  | .stmts ss => Stmt.FormedAll T ss
  | .function _ decl => decl.Formed T
  | .functions decls => FunDecl.FormedAll T decls

end

variable {T : Token → Prop}

theorem Stmt.formedAll_append {ss ss' : List Stmt} (h : Stmt.FormedAll T ss)
    (h' : Stmt.FormedAll T ss') : Stmt.FormedAll T (ss ++ ss') := by
  induction ss with
  | nil => exact h'
  | cons s ss ih => exact ⟨h.1, ih h.2⟩

/-- Where no declaration stands outside of a list of statements, only declarations declare. -/
theorem Stmt.declared_eq_nil {s : Stmt} (hs : s.Formed T) (h : s.isDeclaration = false) :
    s.declared = [] := by
  induction s using Stmt.declared.induct with
  | case1 | case2 | case3 => cases h
  | case4 condition whenTrue ih => exact ih hs.2.1 hs.2.2
  | case5 condition whenTrue whenFalse ih ih' =>
    rw [Stmt.declared, ih hs.2.1.1 hs.2.1.2, ih' hs.2.2.1 hs.2.2.2, List.append_nil]
  | case6 condition body ih => exact ih hs.2.1 hs.2.2
  | case7 s h1 h2 h3 h4 h5 h6 =>
    cases s with
    | varDecl => exact absurd rfl (h1 _ _)
    | funDecl => exact absurd rfl (h2 _)
    | classDecl => exact absurd rfl (h3 _ _)
    | ifElse c a b => cases b with
      | none => exact absurd rfl (h4 _ _)
      | some b => exact absurd rfl (h5 _ _ _)
    | whileLoop => exact absurd rfl (h6 _ _)
    | _ => rfl

/-- Parts of a well-formed tree are well-formed. -/
theorem Node.Formed.of_mem_children {n m : Node} (hn : n.Formed T) (hm : m ∈ n.children) :
    m.Formed T := by
  cases n with
  | expr e =>
    cases e with
    | literal | «variable» | thisRef => cases hm
    | group | function =>
      cases List.mem_singleton.1 hm
      exact hn
    | assign | unary =>
      cases List.mem_singleton.1 hm
      exact hn.2
    | get =>
      cases List.mem_singleton.1 hm
      exact hn.1
    | binary | logical | call | set =>
      rcases List.mem_pair.1 hm with rfl | rfl
      · exact hn.1
      · exact hn.2.2
    | conditional =>
      rcases List.mem_cons.1 hm with rfl | hm
      · exact hn.1
      · rcases List.mem_pair.1 hm with rfl | rfl
        · exact hn.2.2.1
        · exact hn.2.2.2
  | exprs es =>
    cases es with
    | nil => cases hm
    | cons e es =>
      rcases List.mem_pair.1 hm with rfl | rfl
      · exact hn.1
      · exact hn.2
  | stmt s =>
    cases s with
    | expr | print | block =>
      cases List.mem_singleton.1 hm
      exact hn
    | varDecl name init =>
      cases init with
      | none => cases hm
      | some e =>
        cases List.mem_singleton.1 hm
        exact hn.2
    | ifElse c a b =>
      cases b with
      | none =>
        rcases List.mem_pair.1 hm with rfl | rfl
        · exact hn.1
        · exact hn.2.1
      | some b =>
        rcases List.mem_cons.1 hm with rfl | hm
        · exact hn.1
        · rcases List.mem_pair.1 hm with rfl | rfl
          · exact hn.2.1.1
          · exact hn.2.2.1
    | whileLoop =>
      rcases List.mem_pair.1 hm with rfl | rfl
      · exact hn.1
      · exact hn.2.1
    | funDecl =>
      cases List.mem_singleton.1 hm
      exact hn.1
    | ret keyword e =>
      cases e with
      | none => cases hm
      | some e =>
        cases List.mem_singleton.1 hm
        exact hn.2
    | classDecl =>
      cases List.mem_singleton.1 hm
      exact hn.2.1
  | stmts ss =>
    cases ss with
    | nil => cases hm
    | cons s ss =>
      rcases List.mem_pair.1 hm with rfl | rfl
      · exact hn.1
      · exact hn.2
  | function kind decl =>
    cases decl
    cases List.mem_singleton.1 hm
    exact hn.2.2
  | functions fs =>
    cases fs with
    | nil => cases hm
    | cons f fs =>
      rcases List.mem_pair.1 hm with rfl | rfl
      · exact hn.1
      · exact hn.2

theorem Node.Formed.at? {n m : Node} {path : List Nat} (hn : n.Formed T)
    (hm : n.at? path = some m) :
    m.Formed T := by
  induction path generalizing n with
  | nil =>
    cases hm
    exact hn
  | cons i path ih =>
    obtain ⟨child, hchild, hm⟩ := Option.bind_eq_some_iff.1 hm
    exact ih (hn.of_mem_children (List.mem_of_getElem? hchild)) hm

/-! ### Induction on the parts of a tree -/

namespace Node

/-- The size of a part of a tree. -/
noncomputable def size : Node → Nat
  | .expr e => sizeOf e
  | .exprs es => sizeOf es
  | .stmt s => sizeOf s
  | .stmts ss => sizeOf ss
  | .function _ decl => sizeOf decl
  | .functions decls => sizeOf decls

theorem size_lt_of_mem_children {n m : Node} (h : m ∈ n.children) : m.size < n.size := by
  cases n with
  | expr e =>
    cases e
    all_goals simp only [children, List.mem_cons, List.not_mem_nil, or_false] at h
    all_goals grind [size]
  | exprs es =>
    cases es
    all_goals simp only [children, List.mem_cons, List.not_mem_nil, or_false] at h
    grind [size]
  | stmt s =>
    cases s with
    | varDecl name init =>
      cases init
      all_goals simp only [children, List.mem_cons, List.not_mem_nil, or_false] at h
      grind [size]
    | ifElse c a b =>
      cases b
      all_goals simp only [children, List.mem_cons, List.not_mem_nil, or_false] at h
      all_goals grind [size]
    | ret keyword e =>
      cases e
      all_goals simp only [children, List.mem_cons, List.not_mem_nil, or_false] at h
      grind [size]
    | _ =>
      simp only [children, List.mem_cons, List.not_mem_nil, or_false] at h
      grind [size]
  | stmts ss =>
    cases ss
    all_goals simp only [children, List.mem_cons, List.not_mem_nil, or_false] at h
    grind [size]
  | function kind decl =>
    cases decl
    rw [List.mem_singleton.1 h]
    grind [size, FunDecl.body]
  | functions fs =>
    cases fs
    all_goals simp only [children, List.mem_cons, List.not_mem_nil, or_false] at h
    grind [size]

/-- What holds of a part of a tree if it holds of its own parts holds of all trees. -/
theorem induct {P : Node → Prop} (h : ∀ n : Node, (∀ m ∈ n.children, P m) → P n) (n : Node) :
    P n :=
  h n fun m _ => induct h m
  termination_by n.size
  decreasing_by exact size_lt_of_mem_children ‹_›

end Node

end Scriptlet

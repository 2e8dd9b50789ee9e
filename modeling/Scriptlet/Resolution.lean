import Scriptlet.Error
import Scriptlet.Program
import Std.Data.TreeMap

namespace Scriptlet

/-!
# Resolution of names

A walk over a program in source order that finds out, before anything runs, which declaration
each name means, and reports what the scoping rules forbid.

* `Depths` — for each node that names a local variable, the number of scopes between the node
  and the one that binds it. Nodes without an entry mean global variables.
* `Binding`, `LocalScope` — what the walk knows about the names of a scope. There is one scope
  per block, one per function for its parameters and body, and one per class for `this`.
* `Walk` — the state of the walk; `Walk.stmt`, `Walk.expr`, `Walk.function` — its steps.
* `Resolution.resolve` — the walk over a whole program.
-/

/-- How many scopes lie between a node and the scope that binds its name. -/
abbrev Depths := Std.TreeMap NodeId Nat

/-! ### Scopes -/

/-- What has happened to a local name so far. -/
inductive Usage where
  /-- Its initializer is still being walked. -/
  | declared
  | defined
  /-- Some expression read it. -/
  | read
  deriving Repr, DecidableEq

/-- A local name: the token that declared it, and its use. -/
structure Binding where
  token : Token
  usage : Usage
  deriving Repr

/-- The names of a scope. -/
abbrev LocalScope := Std.TreeMap String Binding

namespace Binding

/-- A name whose initializer is over. -/
def define (b : Binding) : Binding :=
  if b.usage = .declared then { b with usage := .defined } else b

/-- A name that was read. -/
def markRead (b : Binding) : Binding := { b with usage := .read }

/-- The order in which names are reported: by line, then by text. -/
def upTo (a b : Binding) : Bool :=
  a.token.line < b.token.line ||
    (a.token.line = b.token.line && a.token.lexeme ≤ b.token.lexeme)

/-- Put a binding in front of the first that does not come before it. -/
def insertOrdered (a : Binding) : List Binding → List Binding
  | [] => [a]
  | b :: bs => if a.upTo b then a :: b :: bs else b :: insertOrdered a bs

end Binding

/-- The names of a scope that nothing read, in the order in which they are reported. -/
def LocalScope.unused (scope : LocalScope) : List Binding :=
  ((scope.toList.map (·.2)).filter (·.usage ≠ .read)).foldr Binding.insertOrdered []

/-! ### The walk -/

/-- The body that a statement stands in. -/
inductive Body where
  | topLevel
  | function
  /-- The method that a class runs on each new object. -/
  | initializer
  deriving Repr, DecidableEq

/-- A node, and the depth that is recorded for it. -/
abbrev Note := NodeId × Nat

/-- The state of the walk. -/
structure Walk where
  /-- The local scopes around the node, from the innermost out. -/
  scopes : List LocalScope
  body : Body
  inClass : Bool
  depths : Depths
  /-- The entries that the walk has made in `depths`, in this order. -/
  notes : Array Note
  report : Report

namespace Walk

/-- Report a broken rule at a token. -/
def complain (w : Walk) (token : Token) (fault : ScopeFault) : Walk :=
  { w with report := w.report.add (.scope token fault) }

/-- Enter a scope. -/
def openScope (w : Walk) (scope : LocalScope) : Walk := { w with scopes := scope :: w.scopes }

/-- Leave the innermost scope, and report the names that nothing read. -/
def closeScope (w : Walk) : Walk :=
  match w.scopes with
  | [] => w
  | scope :: outer =>
    scope.unused.foldl (fun w b => w.complain b.token (.neverUsed b.token.lexeme))
      { w with scopes := outer }

/-- Declare a name in the innermost scope. Global names are not tracked. -/
def declare (w : Walk) (name : Token) : Walk :=
  match w.scopes with
  | [] => w
  | scope :: outer =>
    let w := if scope.contains name.lexeme then w.complain name .alreadyDeclared else w
    { w with scopes := scope.insert name.lexeme ⟨name, .declared⟩ :: outer }

/-- The initializer of a name of the innermost scope is over. -/
def define (w : Walk) (name : Token) : Walk :=
  match w.scopes with
  | [] => w
  | scope :: outer => { w with scopes := scope.modify name.lexeme Binding.define :: outer }

/-- Declare a name that is usable at once. -/
def introduce (w : Walk) (name : Token) : Walk := (w.declare name).define name

/-- The distance of the innermost scope that holds the name. -/
def depth? (w : Walk) (name : String) : Option Nat := w.scopes.findIdx? (·.contains name)

/-- Record which scope a node refers to, if any local scope holds its name. -/
def refer (w : Walk) (id : NodeId) (name : Token) : Walk :=
  match w.depth? name.lexeme with
  | none => w
  | some d => { w with depths := w.depths.insert id d, notes := w.notes.push (id, d) }

/-- The innermost scope that holds the name counts it as read. -/
def markRead (w : Walk) (name : Token) : Walk :=
  match w.depth? name.lexeme with
  | none => w
  | some d =>
    { w with scopes := w.scopes.modify d (·.modify name.lexeme Binding.markRead) }

/-- A node that reads a name. -/
def read (w : Walk) (id : NodeId) (name : Token) : Walk := (w.refer id name).markRead name

/-- Whether a name belongs to the innermost scope and its initializer is not over. -/
def inOwnInitializer (w : Walk) (name : String) : Bool :=
  match w.scopes with
  | [] => false
  | scope :: _ =>
    match scope[name]? with
    | some b => b.usage = .declared
    | none => false

/-- The scope around the methods of a class, which holds `this`. -/
def thisScope (line : Nat) : LocalScope :=
  (∅ : LocalScope).insert "this" ⟨⟨.symbol .thisKw, "this", line⟩, .read⟩

/-- A `return` statement stands in a function, and brings no value out of an initializer. -/
def checkReturn (w : Walk) (keyword : Token) (hasValue : Bool) : Walk :=
  let w := if w.body = .topLevel then w.complain keyword .returnOutsideFunction else w
  if hasValue && w.body = .initializer then w.complain keyword .returnValueFromInitializer else w

/-- The kind of body that a method has. -/
def methodBody (f : FunDecl) : Body := if f.isInitializer then .initializer else .function

mutual

/-- Walk over an expression. -/
def expr : Expr → Walk → Walk
  | .literal _, w => w
  | .group inner, w => expr inner w
  | .variable id name, w =>
    let w := if w.inOwnInitializer name.lexeme then w.complain name .readInOwnInitializer else w
    w.read id name
  | .thisRef id keyword, w =>
    if w.inClass then w.read id keyword else w.complain keyword .thisOutsideClass
  | .assign id name value, w => (expr value w).refer id name
  | .unary _ operand, w => expr operand w
  | .binary left _ right, w => expr right (expr left w)
  | .logical left _ right, w => expr right (expr left w)
  | .conditional condition _ whenTrue whenFalse, w =>
    expr whenFalse (expr whenTrue (expr condition w))
  | .call callee _ arguments, w => exprs arguments (expr callee w)
  | .get object _, w => expr object w
  | .set object _ value, w => expr value (expr object w)
  | .function decl, w => function .function decl w

def exprs : List Expr → Walk → Walk
  | [], w => w
  | e :: es, w => exprs es (expr e w)

/-- Walk over a statement. -/
def stmt : Stmt → Walk → Walk
  | .expr e, w => expr e w
  | .print e, w => expr e w
  | .varDecl name none, w => w.introduce name
  | .varDecl name (some e), w => (expr e (w.declare name)).define name
  | .block body, w => (stmts body (w.openScope ∅)).closeScope
  | .ifElse condition whenTrue none, w => stmt whenTrue (expr condition w)
  | .ifElse condition whenTrue (some whenFalse), w =>
    stmt whenFalse (stmt whenTrue (expr condition w))
  | .whileLoop condition body, w => stmt body (expr condition w)
  | .funDecl decl, w =>
    let w := match decl.name? with
      | some name => w.introduce name
      | none => w
    function .function decl w
  | .ret keyword none, w => w.checkReturn keyword false
  | .ret keyword (some e), w => expr e (w.checkReturn keyword true)
  | .classDecl name methods, w =>
    let inside := ({ w with inClass := true }.introduce name).openScope (thisScope name.line)
    { (functions methods inside).closeScope with inClass := w.inClass }

def stmts : List Stmt → Walk → Walk
  | [], w => w
  | s :: ss, w => stmts ss (stmt s w)

/-- Walk over a function: its parameters and its body share one scope. -/
def function (kind : Body) : FunDecl → Walk → Walk
  | .mk _ params body, w =>
    let inside := params.foldl introduce ({ w with body := kind }.openScope ∅)
    { (stmts body inside).closeScope with body := w.body }

/-- Walk over the methods of a class. -/
def functions : List FunDecl → Walk → Walk
  | [], w => w
  | f :: fs, w => functions fs (function (methodBody f) f w)

end

end Walk

namespace Resolution

/-- The walk in front of a program. -/
def start (depths : Depths) (report : Report) : Walk :=
  { scopes := [], body := .topLevel, inClass := false, depths, notes := #[], report }

/-- Resolve a program: its depths are added to those known, broken rules to the report. -/
def resolve (statements : List Stmt) (depths : Depths) (report : Report) : Depths × Report :=
  let w := Walk.stmts statements (start depths report)
  (w.depths, w.report)

end Resolution

end Scriptlet

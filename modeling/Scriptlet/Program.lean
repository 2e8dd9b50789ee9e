import Scriptlet.Token

namespace Scriptlet

/-!
# Programs

The trees of expressions and statements.

* `Expr`, `Stmt`, `FunDecl` — expressions, statements, and functions with or without a name.
* `NodeId` — the number of a tree node that names a variable. No two such nodes share a number,
  so what is known about a node can be kept beside the tree.
* `Stmt.forLoop` — the `for` statement, made of blocks and a `while` loop.
-/

/-- The number of a node that names a variable. -/
abbrev NodeId := Nat

/-- The values that can be written in a source. -/
inductive Literal where
  | nil
  | bool (b : Bool)
  | number (x : Float)
  | string (s : String)
  deriving Repr

mutual

/-- Expressions. Operators and names are kept as tokens, for errors to point at. -/
inductive Expr where
  | literal (value : Literal)
  | group (inner : Expr)
  | variable (id : NodeId) (name : Token)
  | thisRef (id : NodeId) (keyword : Token)
  | assign (id : NodeId) (name : Token) (value : Expr)
  | unary (op : Token) (operand : Expr)
  | binary (left : Expr) (op : Token) (right : Expr)
  | logical (left : Expr) (op : Token) (right : Expr)
  | conditional (condition : Expr) (question : Token) (whenTrue whenFalse : Expr)
  /-- A call, with the parenthesis that closes its arguments. -/
  | call (callee : Expr) (paren : Token) (arguments : List Expr)
  | get (object : Expr) (name : Token)
  | set (object : Expr) (name : Token) (value : Expr)
  | function (decl : FunDecl)

/-- Statements. -/
inductive Stmt where
  | expr (e : Expr)
  | print (e : Expr)
  | varDecl (name : Token) (initializer : Option Expr)
  | block (body : List Stmt)
  | ifElse (condition : Expr) (whenTrue : Stmt) (whenFalse : Option Stmt)
  | whileLoop (condition : Expr) (body : Stmt)
  | funDecl (decl : FunDecl)
  | ret (keyword : Token) (value : Option Expr)
  | classDecl (name : Token) (methods : List FunDecl)

/-- A function: its name, if it has one, its parameters and its body. -/
inductive FunDecl where
  | mk (name? : Option Token) (params : List Token) (body : List Stmt)

end

namespace FunDecl

/-- The name of a function, as a token. -/
def name? : FunDecl → Option Token
  | mk name? _ _ => name?

def params : FunDecl → List Token
  | mk _ params _ => params

def body : FunDecl → List Stmt
  | mk _ _ body => body

/-- The number of arguments that a call has to bring. -/
def arity (f : FunDecl) : Nat := f.params.length

/-- The text of the name. -/
def label? (f : FunDecl) : Option String := f.name?.map (·.lexeme)

/-- The text of the name, empty if there is none. -/
def label (f : FunDecl) : String := f.label?.getD ""

/-- The label of a function with a name is that name. -/
theorem label_of_name? {f : FunDecl} {name : Token} (h : f.name? = some name) :
    f.label = name.lexeme := by
  rw [label, label?, h]
  rfl

/-- The name of the method that a class runs on each new object. -/
def initializerName : String := "init"

/-- Whether a method is the one that a class runs on each new object. -/
def isInitializer (f : FunDecl) : Bool := f.label? = some initializerName

@[simp]
theorem name?_mk (n : Option Token) (ps : List Token) (b : List Stmt) :
    (mk n ps b).name? = n := rfl

@[simp]
theorem params_mk (n : Option Token) (ps : List Token) (b : List Stmt) :
    (mk n ps b).params = ps := rfl

@[simp]
theorem body_mk (n : Option Token) (ps : List Token) (b : List Stmt) :
    (mk n ps b).body = b := rfl

end FunDecl

namespace Stmt

/-- The body of a `for` loop, followed by its increment in a scope of their own. -/
def forBody (body : Stmt) : Option Expr → Stmt
  | none => body
  | some increment => .block [body, .expr increment]

/-- A `for` statement has no node of its own: it is its initializer and a `while` loop, in a
    block if there is an initializer; a missing condition always holds. -/
def forLoop (initializer : Option Stmt) (condition increment : Option Expr) (body : Stmt) :
    Stmt :=
  let loop := .whileLoop (condition.getD (.literal (.bool true))) (forBody body increment)
  match initializer with
  | none => loop
  | some first => .block [first, loop]

end Stmt

end Scriptlet

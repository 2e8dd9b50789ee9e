import Scriptlet.Program
import Scriptlet.Text.Quoted

namespace Scriptlet.Outline

/-!
# Outlines of programs

Trees as nested lists in parentheses, one text per statement. Tokens appear as their quoted text
and line, numbers as their bit pattern.

* `Mark` — what is written behind a node that names a variable: nothing, or how far out the
  variable is bound.
* `stmt`, `expr`, `function` — the text of a tree.
-/

/-- What is written behind a node that names a variable. -/
abbrev Mark := NodeId → String

/-- Leave the nodes unmarked. -/
def Mark.none : Mark := fun _ => ""

/-- Mark each node by the number of scopes between it and its binding. -/
def Mark.depth (depth? : NodeId → Option Nat) : Mark := fun id =>
  match depth? id with
  | some d => " @" ++ toString d
  | Option.none => " @global"

/-- Items in parentheses, one blank between them. -/
def list (items : List String) : String := "(" ++ " ".intercalate items ++ ")"

/-- A token: its text and line. -/
def token (t : Token) : String := Text.quoted t.lexeme ++ ":" ++ toString t.line

/-- An operator: its kind and token. -/
def operator (t : Token) : String := t.kind.name ++ " " ++ token t

def literal : Literal → String
  | .nil => "nil"
  | .bool true => "true"
  | .bool false => "false"
  | .number x => list ["num", Decimal.bitText x]
  | .string s => list ["str", Text.quoted s]

mutual

def expr (mark : Mark) : Expr → String
  | .literal value => literal value
  | .group inner => list ["group", expr mark inner]
  | .variable id name => list ["var", token name ++ mark id]
  | .thisRef id keyword => list ["this", token keyword ++ mark id]
  | .assign id name value => list ["assign", token name ++ mark id, expr mark value]
  | .unary op operand => list ["unary", operator op, expr mark operand]
  | .binary left op right => list ["binary", operator op, expr mark left, expr mark right]
  | .logical left op right => list ["logical", operator op, expr mark left, expr mark right]
  | .conditional condition question whenTrue whenFalse =>
    list ["ternary", token question, expr mark condition, expr mark whenTrue,
      expr mark whenFalse]
  | .call callee paren arguments =>
    list ["call", token paren, expr mark callee, list (exprs mark arguments)]
  | .get object name => list ["get", token name, expr mark object]
  | .set object name value => list ["set", token name, expr mark object, expr mark value]
  | .function decl => function mark decl

def exprs (mark : Mark) : List Expr → List String
  | [] => []
  | e :: es => expr mark e :: exprs mark es

def stmt (mark : Mark) : Stmt → String
  | .expr e => list ["expr", expr mark e]
  | .print e => list ["print", expr mark e]
  | .varDecl name none => list ["vardecl", token name, "none"]
  | .varDecl name (some e) => list ["vardecl", token name, expr mark e]
  | .block body => list ["block", list (stmts mark body)]
  | .ifElse condition whenTrue none =>
    list ["if", expr mark condition, stmt mark whenTrue, "none"]
  | .ifElse condition whenTrue (some whenFalse) =>
    list ["if", expr mark condition, stmt mark whenTrue, stmt mark whenFalse]
  | .whileLoop condition body => list ["while", expr mark condition, stmt mark body]
  | .funDecl decl => function mark decl
  | .ret keyword none => list ["return", token keyword, "none"]
  | .ret keyword (some e) => list ["return", token keyword, expr mark e]
  | .classDecl name methods => list ["class", token name, list (functions mark methods)]

def stmts (mark : Mark) : List Stmt → List String
  | [] => []
  | s :: ss => stmt mark s :: stmts mark ss

def function (mark : Mark) : FunDecl → String
  | .mk name? params body =>
    list ["fun", (name?.map token).getD "anonymous", list (params.map token),
      list (stmts mark body)]

def functions (mark : Mark) : List FunDecl → List String
  | [] => []
  | f :: fs => function mark f :: functions mark fs

end

end Scriptlet.Outline

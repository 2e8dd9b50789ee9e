import Scriptlet.Program
import Scriptlet.Text.Quoted

namespace Scriptlet

/-!
# Values

What expressions evaluate to.

* `Env` — an environment: the addresses of its frames, from the innermost out.
* `Closure`, `Class` — a function or a class together with the environment it was made in.
* `Value` — numbers, strings and the like compare by content; functions, classes and objects
  carry a number and are the same only if the numbers are.
* `Value.display` — the text that `print` writes.
-/

/-- The address of a frame of variables. -/
abbrev FrameId := Nat

/-- An environment: the frames of the enclosing scopes, the innermost first. -/
abbrev Env := List FrameId

/-- The number of a function or class, or the address of an object's fields. -/
abbrev ObjectId := Nat

/-- A function and the environment it was made in. -/
structure Closure where
  decl : FunDecl
  env : Env
  /-- Whether every call yields the object that the method belongs to. -/
  isInitializer : Bool

/-- A class: its name, its methods and the environment it was declared in. -/
structure Class where
  name : String
  methods : List FunDecl
  env : Env

/-- What an expression evaluates to. -/
inductive Value where
  | nil
  | bool (b : Bool)
  | number (x : Float)
  | string (s : String)
  /-- A function of the host, by its place in the host's table. -/
  | native (index : Nat)
  | function (id : ObjectId) (closure : Closure)
  | classObj (id : ObjectId) (cls : Class)
  | object (id : ObjectId) (cls : Class)

namespace Closure

def name? (c : Closure) : Option String := c.decl.label?

def arity (c : Closure) : Nat := c.decl.arity

/-- A function as a debugger shows it. -/
def inspect (c : Closure) : String :=
  let name := match c.name? with
    | some n => "Some(" ++ Text.inspected n ++ ")"
    | none => "None"
  "LoxFunction \x7b name: " ++ name ++ ", arity: " ++ toString c.arity ++
    ", is_initializer: " ++ toString c.isInitializer ++ ", .. \x7d"

end Closure

namespace Class

/-- The method with the given name; of several, the one declared last. -/
def method? (c : Class) (name : String) : Option Closure :=
  (c.methods.reverse.find? (·.label = name)).map fun decl =>
    { decl, env := c.env, isInitializer := decl.isInitializer }

/-- The method that runs on each new object. -/
def initializer? (c : Class) : Option Closure := c.method? FunDecl.initializerName

/-- A class takes the arguments of its initializer. -/
def arity (c : Class) : Nat := (c.initializer?.map Closure.arity).getD 0

/-- An object as a debugger shows it: the name of its class and those of its fields. -/
def inspectObject (c : Class) (fields : List String) : String :=
  "LoxInstance \x7b class: " ++ Text.inspected c.name ++ ", fields: [" ++
    ", ".intercalate (fields.map Text.inspected) ++ "] \x7d"

end Class

namespace Value

def ofLiteral : Literal → Value
  | .nil => .nil
  | .bool b => .bool b
  | .number x => .number x
  | .string s => .string s

/-- Everything counts as true, `nil` and `false` apart. -/
def isTruthy : Value → Bool
  | .nil => false
  | .bool b => b
  | _ => true

/-- Whether two values are the same. An undefined number differs from itself. -/
def same : Value → Value → Bool
  | .nil, .nil => true
  | .bool a, .bool b => a = b
  | .number a, .number b => a == b
  | .string a, .string b => a = b
  | .native a, .native b => a = b
  | .function a _, .function b _ => a = b
  | .classObj a _, .classObj b _ => a = b
  | .object a _, .object b _ => a = b
  | _, _ => false

/-- The text that `print` writes. -/
def display : Value → String
  | .nil => "nil"
  | .bool b => if b then "true" else "false"
  | .number x => Decimal.plain x
  | .string s => s
  | .native _ => "<native fn>"
  | .function _ c =>
    match c.name? with
    | some name => "<fn " ++ name ++ ">"
    | none => "<fn>"
  | .classObj _ c => c.name
  | .object _ c => c.name ++ " instance"

end Value

end Scriptlet

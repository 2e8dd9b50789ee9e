import Scriptlet.Text.Utf8
import Scriptlet.Token

namespace Scriptlet

/-!
# Errors and reports

Everything that can be wrong with a source or go wrong in a run, as causes; the wording of each
is given by its `message`.

* `LexicalFault`, `GrammarFault`, `ScopeFault` — what is wrong with a source text.
* `RuntimeFault`, `OutputFault` — what stops a run.
* `Error` — a cause with the place it points at.
* `Report` — errors in the order in which they were found.

Each family has a cause `custom` (`native` for runs) for hosts that bring their own wording.
-/

/-! ### Causes -/

/-- Text that starts no token. -/
inductive LexicalFault where
  | unterminatedString
  | unexpectedCharacter (c : Char)
  | custom (message : String)
  deriving Repr, DecidableEq

def LexicalFault.message : LexicalFault → String
  | unterminatedString => "Unterminated string."
  | unexpectedCharacter c => "Unexpected character: " ++ c.toString
  | custom message => message

/-- The two kinds of named functions. -/
inductive Flavour where
  | function | method
  deriving Repr, DecidableEq

def Flavour.word : Flavour → String
  | function => "function"
  | method => "method"

/-- What the grammar asks for at some point. -/
inductive Expected where
  | expression
  | className | classOpen | classClose
  | name (f : Flavour) | paramsOpen (f : Flavour) | bodyOpen (f : Flavour)
  | paramName | paramsClose
  | variableName | variableEnd
  | forOpen | forConditionEnd | forClose
  | ifOpen | ifClose | whileOpen | whileClose
  | printEnd | expressionEnd | returnEnd | blockClose
  | conditionalColon | propertyName | argumentsClose | groupClose
  | literalParamsOpen | literalBodyOpen
  deriving Repr, DecidableEq

def Expected.message : Expected → String
  | expression => "Expect expression."
  | className => "Expect class name."
  | classOpen => "Expect '\x7b' before class body."
  | classClose => "Expect '\x7d' after class body."
  | name f => "Expect " ++ f.word ++ " name."
  | paramsOpen f => "Expect '(' after " ++ f.word ++ " name."
  | bodyOpen f => "Expect '\x7b' before " ++ f.word ++ " body."
  | paramName => "Expect parameter name."
  | paramsClose => "Expect ')' after parameters."
  | variableName => "Expect variable name."
  | variableEnd => "Expect ';' after variable declaration."
  | forOpen => "Expect '(' after 'for'."
  | forConditionEnd => "Expect ';' after loop condition."
  | forClose => "Expect ')' after for clauses."
  | ifOpen => "Expect '(' after 'if'."
  | ifClose => "Expect ')' after if condition."
  | whileOpen => "Expect '(' after 'while'."
  | whileClose => "Expect ')' after condition."
  | printEnd => "Expect ';' after value."
  | expressionEnd => "Expect ';' after expression."
  | returnEnd => "Expect ';' after return value."
  | blockClose => "Expect '\x7d' after block."
  | conditionalColon => "Expect ':' after then branch of conditional expression."
  | propertyName => "Expect property name after '.'."
  | argumentsClose => "Expect ')' after arguments."
  | groupClose => "Expect ')' after expression."
  | literalParamsOpen => "Expect '(' after 'fun'."
  | literalBodyOpen => "Expect '\x7b' before function body."

/-- Tokens that the grammar does not derive. -/
inductive GrammarFault where
  | expected (what : Expected)
  | tooManyParameters
  | tooManyArguments
  | invalidAssignmentTarget
  | custom (message : String)
  deriving Repr, DecidableEq

def GrammarFault.message : GrammarFault → String
  | expected what => what.message
  | tooManyParameters => "Can't have more than 255 parameters."
  | tooManyArguments => "Can't have more than 255 arguments."
  | invalidAssignmentTarget => "Invalid assignment target."
  | custom message => message

/-- A program that breaks a scoping rule. -/
inductive ScopeFault where
  | returnOutsideFunction
  | returnValueFromInitializer
  | readInOwnInitializer
  | thisOutsideClass
  | alreadyDeclared
  | neverUsed (name : String)
  | custom (message : String)
  deriving Repr, DecidableEq

def ScopeFault.message : ScopeFault → String
  | returnOutsideFunction => "Can't return from top-level code."
  | returnValueFromInitializer => "Can't return a value from an initializer."
  | readInOwnInitializer => "Can't read local variable in its own initializer."
  | thisOutsideClass => "Can't use 'this' outside of a class."
  | alreadyDeclared => "Already a variable with this name in this scope."
  | neverUsed name => "Local variable '" ++ name ++ "' is never used."
  | custom message => message

/-- A step of a run that has no result. -/
inductive RuntimeFault where
  | undefinedVariable (name : String)
  | undefinedProperty (name : String)
  | operandNotNumber
  | operandsNotNumbers
  | operandsNotAddable
  | divideByZero
  | invalidUnary
  | invalidBinary
  | notCallable
  | arity (expected got : Nat)
  | stackOverflow
  | noProperties
  | noFields
  | native (message : String)
  deriving Repr, DecidableEq

def RuntimeFault.message : RuntimeFault → String
  | undefinedVariable name => "Undefined variable '" ++ name ++ "'."
  | undefinedProperty name => "Undefined property '" ++ name ++ "'."
  | operandNotNumber => "Operand must be a number."
  | operandsNotNumbers => "Operands must be numbers."
  | operandsNotAddable => "Operands must be two numbers or two strings."
  | divideByZero => "Divide by zero."
  | invalidUnary => "Invalid unary operator."
  | invalidBinary => "Invalid binary operator."
  | notCallable => "Can only call functions and classes."
  | arity expected got =>
    "Expected " ++ toString expected ++ " arguments but got " ++ toString got ++ "."
  | stackOverflow => "Stack overflow."
  | noProperties => "Only instances have properties."
  | noFields => "Only instances have fields."
  | native message => message

/-- Output that could not be delivered. -/
inductive OutputFault where
  | full
  | flushFailed
  | custom (message : String)
  deriving Repr, DecidableEq

def OutputFault.message : OutputFault → String
  | full => "sink full"
  | flushFailed => "flush failed"
  | custom message => message

/-! ### Errors -/

/-- What a grammar error points at. -/
inductive Place where
  | token (t : Token)
  | line (n : Nat)
  deriving Repr

/-- A cause and its place. -/
inductive Error where
  | lexical (line : Nat) (fault : LexicalFault)
  | grammar (place : Place) (fault : GrammarFault)
  | scope (token : Token) (fault : ScopeFault)
  | runtime (token : Token) (fault : RuntimeFault)
  | output (fault : OutputFault)
  | encoding (fault : Text.Utf8.Fault)
  deriving Repr

/-- The part of a message that shows the token an error points at. -/
def Token.location (t : Token) : String :=
  if t.isEof then " at end" else " at '" ++ t.lexeme ++ "'"

namespace Error

/-- The line an error points at; output and encoding errors have none. -/
def line? : Error → Option Nat
  | lexical line _ => some line
  | grammar (.token t) _ => some t.line
  | grammar (.line n) _ => some n
  | scope t _ => some t.line
  | runtime t _ => some t.line
  | output _ => none
  | encoding _ => none

/-- A message about a source text. -/
private def staticText (line : Nat) (location message : String) : String :=
  "[line " ++ toString line ++ "] Error" ++ location ++ ": " ++ message

/-- An error as it is shown. -/
def message : Error → String
  | lexical line fault => staticText line "" fault.message
  | grammar (.token t) fault => staticText t.line t.location fault.message
  | grammar (.line n) fault => staticText n "" fault.message
  | scope t fault => staticText t.line t.location fault.message
  | runtime t fault => fault.message ++ "\n[line " ++ toString t.line ++ "]"
  | output fault => fault.message
  | encoding fault => fault.message

end Error

/-! ### Reports -/

/-- Errors in the order in which they were found. -/
structure Report where
  errors : Array Error
  deriving Repr

namespace Report

/-- Nothing was found. -/
def empty : Report := ⟨#[]⟩

instance : EmptyCollection Report := ⟨empty⟩

/-- Put an error at the end. -/
def add (r : Report) (e : Error) : Report := ⟨r.errors.push e⟩

def size (r : Report) : Nat := r.errors.size

def isEmpty (r : Report) : Bool := r.errors.isEmpty

/-- Whether anything was found. -/
def hadError (r : Report) : Bool := !r.isEmpty

/-- The error found last. -/
def last? (r : Report) : Option Error := r.errors.back?

@[simp]
theorem errors_empty : (empty).errors = #[] := rfl

@[simp]
theorem toList_errors_add (r : Report) (e : Error) :
    (r.add e).errors.toList = r.errors.toList ++ [e] := by
  simp [add]

end Report

end Scriptlet

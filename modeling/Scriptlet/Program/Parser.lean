import Scriptlet.Error
import Scriptlet.Program

namespace Scriptlet

/-!
# Reading programs

A descent through the grammar, one function per rule, over the tokens in front of the first end
token.

* `Cursor` — the tokens still to be read, the next free node number and what was reported.
* `Parse` — a rule: it moves the cursor and yields a tree or stops at an error.
* `Tier` — the operators that group to the left, from the loosest to the tightest.
* `Rule.declaration` — reports the error of a declaration that cannot be read, drops it and goes
  on at the next statement.
* `Program.parse` — the statements of a token list.

The rules take a bound on the nesting of their calls. `Program.fuel` computes one from the
number of tokens: no rule calls more than `Program.fuelPerToken` others before it reads a token.
-/

/-! ### The cursor -/

/-- How far a token list is read. -/
structure Cursor where
  /-- The tokens still to be read, all in front of the end token. -/
  rest : List Token
  /-- The end token, at which errors behind the last token point. -/
  stop : Token
  nextNode : NodeId
  report : Report

/-- Why a rule yields no tree. -/
inductive Halt where
  | error (e : Error)
  /-- The bound on nested rules was too small. -/
  | outOfFuel

/-- A rule of the grammar. The cursor keeps its place when the rule stops. -/
abbrev Parse := ExceptT Halt (StateM Cursor)

/-- The next token; behind the last one, the end token. -/
def Cursor.peek (c : Cursor) : Token := c.rest.headD c.stop

/-- Whether the next token is the symbol `s`. -/
def Cursor.at (c : Cursor) (s : Symbol) : Bool :=
  match c.rest with
  | [] => false
  | t :: _ => t.is s

/-- Whether a function declaration follows: the keyword and a name. -/
def Cursor.atNamedFunction (c : Cursor) : Bool :=
  match c.rest with
  | t :: name :: _ => t.is .funKw && name.isIdentifier
  | _ => false

/-- Whether a token starts a statement that is easily recognised. -/
def Token.startsStatement (t : Token) : Bool :=
  match t.kind with
  | .symbol s =>
    s ∈ [.classKw, .funKw, .varKw, .forKw, .ifKw, .whileKw, .printKw, .returnKw]
  | _ => false

/-- The tokens from the next statement on, `previous` being skipped: a statement starts behind a
    semicolon and at the keywords of `Token.startsStatement`. -/
def resumeAfter (previous : Token) : List Token → List Token
  | [] => []
  | t :: rest =>
    if previous.is .semicolon || t.startsStatement then t :: rest else resumeAfter t rest

/-- Skip the token at which a declaration failed and go on to the next statement. -/
def synchronize : List Token → List Token
  | [] => []
  | t :: rest => resumeAfter t rest

namespace Parse

/-- Whether all tokens are read. -/
def atEnd : Parse Bool := return (← get).rest.isEmpty

/-- Whether the next token is the symbol `s`. -/
def check (s : Symbol) : Parse Bool := return (← get).at s

/-- Report an error and go on. -/
def report (e : Error) : Parse Unit := modify fun c => { c with report := c.report.add e }

/-- Report an error at the next token and go on. -/
def reportHere (fault : GrammarFault) : Parse Unit := do
  report (.grammar (.token (← get).peek) fault)

/-- Stop: the next token is not what the grammar asks for. -/
def fail {α : Type} (what : Expected) : Parse α := do
  throw (.error (.grammar (.token (← get).peek) (.expected what)))

/-- Read the next token if it satisfies `p`. -/
def acceptIf (p : Token → Bool) : Parse (Option Token) := do
  let c ← get
  match c.rest with
  | [] => return none
  | t :: rest =>
    if p t then
      set { c with rest := rest }
      return some t
    else return none

/-- Read the next token if it is the symbol `s`. -/
def accept (s : Symbol) : Parse (Option Token) := acceptIf (·.is s)

/-- Go on in one of two ways, the first of them if the next token is the symbol `s`, which is
    then read. -/
def branch {α : Type} (s : Symbol) (found : Token → Parse α) (other : Parse α) : Parse α := do
  match ← accept s with
  | some t => found t
  | none => other

/-- Read the symbol `s`. -/
def expect (s : Symbol) (what : Expected) : Parse Token :=
  branch s pure (fail what)

/-- Read a name. -/
def expectName (what : Expected) : Parse Token := do
  match ← acceptIf (·.isIdentifier) with
  | some t => return t
  | none => fail what

/-- A number that no other node has. -/
def freshNode : Parse NodeId := do
  let c ← get
  set { c with nextNode := c.nextNode + 1 }
  return c.nextNode

end Parse

/-! ### Operators that group to the left -/

/-- The binary operators below assignment, from the loosest to the tightest. -/
inductive Tier where
  | disjunction | conjunction | equality | comparison | term | factor
  deriving Repr, DecidableEq

namespace Tier

/-- The operators of a tier. -/
def symbols : Tier → List Symbol
  | disjunction => [.orKw]
  | conjunction => [.andKw]
  | equality => [.bangEqual, .equalEqual]
  | comparison => [.greater, .greaterEqual, .less, .lessEqual]
  | term => [.minus, .plus]
  | factor => [.star, .slash]

/-- The next tighter tier; the operands of the tightest are unary expressions. -/
def tighter? : Tier → Option Tier
  | disjunction => some conjunction
  | conjunction => some equality
  | equality => some comparison
  | comparison => some term
  | term => some factor
  | factor => none

/-- Whether a token is an operator of the tier. -/
def has (tier : Tier) (t : Token) : Bool :=
  match t.kind with
  | .symbol s => s ∈ tier.symbols
  | _ => false

/-- The tree of an operator and its operands: only the logical ones may skip the second. -/
def node : Tier → Expr → Token → Expr → Expr
  | disjunction, left, op, right => .logical left op right
  | conjunction, left, op, right => .logical left op right
  | _, left, op, right => .binary left op right

end Tier

/-! ### The rules -/

namespace Rule

/-- The most parameters of a function and the most arguments of a call. -/
def maxArity : Nat := 255

/-- The parameters from the next on, `count` of them being read. -/
def parametersFrom : Nat → Nat → Parse (List Token)
  | 0, _ => throw .outOfFuel
  | n + 1, count => do
    if maxArity ≤ count then Parse.reportHere .tooManyParameters
    let param ← Parse.expectName .paramName
    let rest ← Parse.branch .comma (fun _ => parametersFrom n (count + 1)) (pure [])
    return param :: rest

/-- The parameters up to the closing parenthesis, the opening one being read. -/
def parameters (n : Nat) : Parse (List Token) := do
  let params ← if ← Parse.check .rightParen then pure [] else parametersFrom n 0
  let _ ← Parse.expect .rightParen .paramsClose
  return params

/-- The tree of an assignment to `target`. Only variables and properties can be assigned to: for
    any other target that is reported at the equals sign, and the target itself is the result. -/
def assignTo (target : Expr) (equals : Token) (value : Expr) : Parse Expr := do
  match target with
  | .variable _ name => return .assign (← Parse.freshNode) name value
  | .get object name => return .set object name value
  | other =>
    Parse.report (.grammar (.token equals) .invalidAssignmentTarget)
    return other

mutual

/-- A declaration or statement; none if it cannot be read. Its error is then reported, and the
    cursor stands at the next statement. -/
def declaration : Nat → Parse (Option Stmt)
  | 0 => throw .outOfFuel
  | n + 1 => do
    try
      return some (← declarationOrStatement n)
    catch
      | .outOfFuel => throw .outOfFuel
      | .error e =>
        Parse.report e
        modify fun c => { c with rest := synchronize c.rest }
        return none

/-- A class, function or variable declaration, or a statement. -/
def declarationOrStatement : Nat → Parse Stmt
  | 0 => throw .outOfFuel
  | n + 1 =>
    Parse.branch .classKw (fun _ => classDeclaration n) do
      if (← get).atNamedFunction then
        let _ ← Parse.accept .funKw
        return .funDecl (← function n .function)
      else Parse.branch .varKw (fun _ => varDeclaration n) (statement n)

/-- A class, its keyword being read. -/
def classDeclaration : Nat → Parse Stmt
  | 0 => throw .outOfFuel
  | n + 1 => do
    let name ← Parse.expectName .className
    let _ ← Parse.expect .leftBrace .classOpen
    let methods ← methods n
    let _ ← Parse.expect .rightBrace .classClose
    return .classDecl name methods

/-- The methods up to the closing brace or the end. -/
def methods : Nat → Parse (List FunDecl)
  | 0 => throw .outOfFuel
  | n + 1 => do
    if (← Parse.check .rightBrace) || (← Parse.atEnd) then return []
    else
      let method ← function n .method
      return method :: (← methods n)

/-- A function with its name, parameters and body. -/
def function : Nat → Flavour → Parse FunDecl
  | 0, _ => throw .outOfFuel
  | n + 1, flavour => do
    let name ← Parse.expectName (.name flavour)
    let _ ← Parse.expect .leftParen (.paramsOpen flavour)
    let params ← parameters n
    let _ ← Parse.expect .leftBrace (.bodyOpen flavour)
    return .mk (some name) params (← block n)

/-- A variable declaration, its keyword being read. -/
def varDeclaration : Nat → Parse Stmt
  | 0 => throw .outOfFuel
  | n + 1 => do
    let name ← Parse.expectName .variableName
    let initializer ← Parse.branch .equal (fun _ => some <$> expression n) (pure none)
    let _ ← Parse.expect .semicolon .variableEnd
    return .varDecl name initializer

/-- A statement that declares nothing. -/
def statement : Nat → Parse Stmt
  | 0 => throw .outOfFuel
  | n + 1 =>
    Parse.branch .forKw (fun _ => forStatement n) <|
    Parse.branch .ifKw (fun _ => ifStatement n) <|
    Parse.branch .whileKw (fun _ => whileStatement n) <|
    Parse.branch .returnKw (fun keyword => returnStatement n keyword) <|
    Parse.branch .leftBrace (fun _ => .block <$> block n) <|
    Parse.branch .printKw (fun _ => printStatement n) <|
    expressionStatement n

/-- A `print` statement, its keyword being read. -/
def printStatement : Nat → Parse Stmt
  | 0 => throw .outOfFuel
  | n + 1 => do
    let value ← expression n
    let _ ← Parse.expect .semicolon .printEnd
    return .print value

/-- An expression and a semicolon. -/
def expressionStatement : Nat → Parse Stmt
  | 0 => throw .outOfFuel
  | n + 1 => do
    let e ← expression n
    let _ ← Parse.expect .semicolon .expressionEnd
    return .expr e

/-- A `for` statement, its keyword being read. -/
def forStatement : Nat → Parse Stmt
  | 0 => throw .outOfFuel
  | n + 1 => do
    let _ ← Parse.expect .leftParen .forOpen
    let initializer ←
      Parse.branch .semicolon (fun _ => pure none) <|
      Parse.branch .varKw (fun _ => some <$> varDeclaration n) <|
      some <$> expressionStatement n
    let condition ← if ← Parse.check .semicolon then pure none else some <$> expression n
    let _ ← Parse.expect .semicolon .forConditionEnd
    let increment ← if ← Parse.check .rightParen then pure none else some <$> expression n
    let _ ← Parse.expect .rightParen .forClose
    return .forLoop initializer condition increment (← statement n)

/-- An `if` statement, its keyword being read; an `else` belongs to the nearest `if`. -/
def ifStatement : Nat → Parse Stmt
  | 0 => throw .outOfFuel
  | n + 1 => do
    let _ ← Parse.expect .leftParen .ifOpen
    let condition ← expression n
    let _ ← Parse.expect .rightParen .ifClose
    let whenTrue ← statement n
    let whenFalse ← Parse.branch .elseKw (fun _ => some <$> statement n) (pure none)
    return .ifElse condition whenTrue whenFalse

/-- A `while` statement, its keyword being read. -/
def whileStatement : Nat → Parse Stmt
  | 0 => throw .outOfFuel
  | n + 1 => do
    let _ ← Parse.expect .leftParen .whileOpen
    let condition ← expression n
    let _ ← Parse.expect .rightParen .whileClose
    return .whileLoop condition (← statement n)

/-- A `return` statement, its keyword being read. -/
def returnStatement : Nat → Token → Parse Stmt
  | 0, _ => throw .outOfFuel
  | n + 1, keyword => do
    let value ← if ← Parse.check .semicolon then pure none else some <$> expression n
    let _ ← Parse.expect .semicolon .returnEnd
    return .ret keyword value

/-- The statements up to the closing brace, the opening one being read. -/
def block : Nat → Parse (List Stmt)
  | 0 => throw .outOfFuel
  | n + 1 => do
    let body ← declarations n
    let _ ← Parse.expect .rightBrace .blockClose
    return body

/-- The declarations up to a closing brace or the end. -/
def declarations : Nat → Parse (List Stmt)
  | 0 => throw .outOfFuel
  | n + 1 => do
    if (← Parse.check .rightBrace) || (← Parse.atEnd) then return []
    else
      let first ← declaration n
      return first.toList ++ (← declarations n)

/-- Assignments separated by commas. -/
def expression : Nat → Parse Expr
  | 0 => throw .outOfFuel
  | n + 1 => do commaRest n (← assignment n)

/-- Further expressions behind commas. -/
def commaRest : Nat → Expr → Parse Expr
  | 0, _ => throw .outOfFuel
  | n + 1, left =>
    Parse.branch .comma
      (fun op => do commaRest n (.binary left op (← assignment n)))
      (pure left)

/-- Assignments and conditional expressions; both group to the right. -/
def assignment : Nat → Parse Expr
  | 0 => throw .outOfFuel
  | n + 1 => do
    let e ← tier n .disjunction
    Parse.branch .equal (fun equals => do assignTo e equals (← assignment n)) <|
    Parse.branch .question (fun question => conditional n e question) <|
    pure e

/-- The two branches of a conditional expression, its question mark being read. -/
def conditional : Nat → Expr → Token → Parse Expr
  | 0, _, _ => throw .outOfFuel
  | n + 1, condition, question => do
    let whenTrue ← assignment n
    let _ ← Parse.expect .colon .conditionalColon
    return .conditional condition question whenTrue (← assignment n)

/-- Operands of one tier with its operators between them. -/
def tier : Nat → Tier → Parse Expr
  | 0, _ => throw .outOfFuel
  | n + 1, t => do tierRest n t (← operand n t)

/-- Further operands of a tier. -/
def tierRest : Nat → Tier → Expr → Parse Expr
  | 0, _, _ => throw .outOfFuel
  | n + 1, t, left => do
    match ← Parse.acceptIf t.has with
    | some op => tierRest n t (t.node left op (← operand n t))
    | none => return left

/-- An operand of a tier. -/
def operand : Nat → Tier → Parse Expr
  | 0, _ => throw .outOfFuel
  | n + 1, t =>
    match t.tighter? with
    | some t' => tier n t'
    | none => unary n

/-- Negations and signs in front of a call. -/
def unary : Nat → Parse Expr
  | 0 => throw .outOfFuel
  | n + 1 => do
    match ← Parse.acceptIf (fun t => t.is .bang || t.is .minus) with
    | some op => return .unary op (← unary n)
    | none => callRest n (← primary n)

/-- Calls and property accesses behind an expression. -/
def callRest : Nat → Expr → Parse Expr
  | 0, _ => throw .outOfFuel
  | n + 1, e =>
    Parse.branch .leftParen
      (fun _ => do
        let arguments ← if ← Parse.check .rightParen then pure [] else argumentsFrom n 0
        let paren ← Parse.expect .rightParen .argumentsClose
        callRest n (.call e paren arguments)) <|
    Parse.branch .dot
      (fun _ => do
        let name ← Parse.expectName .propertyName
        callRest n (.get e name)) <|
    pure e

/-- The arguments from the next on, `count` of them being read. -/
def argumentsFrom : Nat → Nat → Parse (List Expr)
  | 0, _ => throw .outOfFuel
  | n + 1, count => do
    if maxArity ≤ count then Parse.reportHere .tooManyArguments
    let argument ← assignment n
    let rest ← Parse.branch .comma (fun _ => argumentsFrom n (count + 1)) (pure [])
    return argument :: rest

/-- Literals, names, groups and functions without a name. -/
def primary : Nat → Parse Expr
  | 0 => throw .outOfFuel
  | n + 1 => do
    let c ← get
    match c.rest with
    | [] => Parse.fail .expression
    | t :: rest =>
      let skip : Parse Unit := set { c with rest := rest }
      match t.kind with
      | .symbol .falseKw => skip; return .literal (.bool false)
      | .symbol .trueKw => skip; return .literal (.bool true)
      | .symbol .nilKw => skip; return .literal .nil
      | .number x => skip; return .literal (.number x)
      | .string s => skip; return .literal (.string s)
      | .symbol .thisKw => skip; return .thisRef (← Parse.freshNode) t
      | .identifier => skip; return .variable (← Parse.freshNode) t
      | .symbol .leftParen =>
        skip
        let inner ← expression n
        let _ ← Parse.expect .rightParen .groupClose
        return .group inner
      | .symbol .funKw =>
        skip
        let _ ← Parse.expect .leftParen .literalParamsOpen
        let params ← parameters n
        let _ ← Parse.expect .leftBrace .literalBodyOpen
        return .function (.mk none params (← block n))
      | _ => Parse.fail .expression

end

/-- The declarations up to the end. -/
def program : Nat → Parse (List Stmt)
  | 0 => throw .outOfFuel
  | n + 1 => do
    if ← Parse.atEnd then return []
    else
      let first ← declaration n
      return first.toList ++ (← program n)

end Rule

/-! ### Programs -/

/-- The statements of a token list, what was reported about it, and the next free node number. -/
structure Parsed where
  statements : List Stmt
  report : Report
  nextNode : NodeId

namespace Program

/-- No rule calls more than this many others, one inside the other, before it reads a token. -/
def fuelPerToken : Nat := 24

/-- A bound on the nesting of rules for a number of tokens. -/
def fuel (tokens : Nat) : Nat := fuelPerToken * (tokens + 2)

/-- The end token of a list: the first, or one on line zero if the list has none. -/
def endToken (tokens : List Token) : Token :=
  (tokens.find? (·.isEof)).getD ⟨.eof, "", 0⟩

/-- The cursor in front of a token list. -/
def start (tokens : List Token) (nextNode : NodeId) (report : Report) : Cursor :=
  { rest := tokens.takeWhile (!·.isEof), stop := endToken tokens, nextNode, report }

/-- The statements of a token list, errors being added to the report. Statements that cannot be
    read are left out. -/
def parse (tokens : List Token) (nextNode : NodeId) (report : Report) : Parsed :=
  match (Rule.program (fuel tokens.length)).run (start tokens nextNode report) with
  | (.ok statements, c) => ⟨statements, c.report, c.nextNode⟩
  | (.error _, c) => ⟨[], c.report, c.nextNode⟩

end Program

end Scriptlet

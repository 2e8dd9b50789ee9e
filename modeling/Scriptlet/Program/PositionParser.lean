import Scriptlet.Program.Parser

namespace Scriptlet

/-!
# Reading programs by position

The rules of the grammar over a token list that stays as it is and a position in it. Nothing keeps
a position inside of the list but the way in which the rules move it.

* `Reader` — the tokens, the position of the next one, and a record of what was done.
* `Reading` — a rule over positions. It stops at an error, or when a token is looked up where the
  list has none.
* `Reading.previous`, `Reading.advance` — the token in front of the position, and one step forward.
* `Reading.synchronize` — goes on to the next statement after an error.
* `ByPosition.program` — the declarations up to the end.
-/

/-! ### The reader -/

/-- What a reader does, as far as it is on record. -/
inductive Reader.Event where
  /-- This position became the current one. -/
  | moved (position : Nat)
  /-- The token at this position was looked up as the previous one. -/
  | looked (position : Nat)
  /-- A declaration was asked for at one position and done with at another. -/
  | declared (first last : Nat)
  deriving Repr, DecidableEq

/-- Why a rule over positions yields no tree. -/
inductive Reader.Stop where
  | error (e : Error)
  /-- The bound on nested rules was too small. -/
  | outOfFuel
  /-- The list has no token at this position. -/
  | outside (position : Nat)

/-- A position in a token list. -/
structure Reader where
  tokens : List Token
  /-- The position of the next token. -/
  current : Nat
  nextNode : NodeId
  report : Report
  /-- What was done, the latest first. -/
  events : List Reader.Event

/-- A rule of the grammar over positions. -/
abbrev Reading := ExceptT Reader.Stop (StateM Reader)

namespace Reader

/-- A reader in front of a token list. -/
def new (tokens : List Token) (nextNode : NodeId) (report : Report) : Reader :=
  ⟨tokens, 0, nextNode, report, []⟩

/-- The next token; behind the last one, an end token on line zero. -/
def peek (r : Reader) : Token := r.tokens[r.current]?.getD ⟨.eof, "", 0⟩

def atEnd (r : Reader) : Bool := r.peek.isEof

/-- Whether the next token satisfies `p`; an end token never does. -/
def check (r : Reader) (p : Token → Bool) : Bool := !r.atEnd && p r.peek

/-- Whether the token behind the next one satisfies `p`. -/
def checkNext (r : Reader) (p : Token → Bool) : Bool :=
  match r.tokens[r.current + 1]? with
  | some t => !t.isEof && p t
  | none => false

/-- The reader with one more event on record. -/
def record (r : Reader) (e : Event) : Reader := { r with events := e :: r.events }

end Reader

namespace Reading

variable {α : Type}

def atEnd : Reading Bool := return (← get).atEnd

def check (s : Symbol) : Reading Bool := return (← get).check (·.is s)

/-- Whether a function declaration follows: the keyword and a name. -/
def atNamedFunction : Reading Bool := do
  let r ← get
  return r.check (·.is .funKw) && r.checkNext (·.isIdentifier)

def record (e : Reader.Event) : Reading Unit := modify (·.record e)

def report (e : Error) : Reading Unit := modify fun r => { r with report := r.report.add e }

def reportHere (fault : GrammarFault) : Reading Unit := do
  report (.grammar (.token (← get).peek) fault)

def fail (what : Expected) : Reading α := do
  throw (.error (.grammar (.token (← get).peek) (.expected what)))

def freshNode : Reading NodeId := do
  let r ← get
  set { r with nextNode := r.nextNode + 1 }
  return r.nextNode

/-- The token in front of the position. In front of the first one, that is the next token. -/
def previous : Reading Token := do
  let r ← get
  match r.current with
  | 0 => return r.peek
  | i + 1 =>
    record (.looked i)
    match r.tokens[i]? with
    | some t => return t
    | none => throw (.outside i)

/-- One step forward, unless at the end. -/
def step : Reading Unit := do
  let r ← get
  unless r.atEnd do
    set ({ r with current := r.current + 1 }.record (.moved (r.current + 1)))

/-- Read the next token, if it is not the end token. -/
def advance : Reading Token := do
  step
  previous

/-- Read the next token if it satisfies `p`. -/
def acceptIf (p : Token → Bool) : Reading (Option Token) := do
  if (← get).check p then some <$> advance else return none

/-- Go on in one of two ways, the first of them if the next token is the symbol `s`, which is
    then read. -/
def branch (s : Symbol) (found : Token → Reading α) (other : Reading α) : Reading α := do
  match ← acceptIf (·.is s) with
  | some t => found t
  | none => other

/-- Read the symbol `s`. -/
def expect (s : Symbol) (what : Expected) : Reading Token :=
  branch s pure (fail what)

/-- Read a name. -/
def expectName (what : Expected) : Reading Token := do
  match ← acceptIf (·.isIdentifier) with
  | some t => return t
  | none => fail what

/-- Go on until the previous token is a semicolon or the next one starts a statement. -/
def resume : Nat → Reading Unit
  | 0 => throw .outOfFuel
  | n + 1 => do
    if ← atEnd then return ()
    else
      let t ← previous
      if t.is .semicolon || (← get).peek.startsStatement then return ()
      else
        let _ ← advance
        resume n

/-- Skip the token at which a declaration failed and go on to the next statement. -/
def synchronize : Reading Unit := do
  let _ ← advance
  resume ((← get).tokens.length + 1)

end Reading

/-! ### The rules -/

namespace ByPosition

open Reading

def parametersFrom : Nat → Nat → Reading (List Token)
  | 0, _ => throw .outOfFuel
  | n + 1, count => do
    if Rule.maxArity ≤ count then reportHere .tooManyParameters
    let param ← expectName .paramName
    let rest ← branch .comma (fun _ => parametersFrom n (count + 1)) (pure [])
    return param :: rest

def parameters (n : Nat) : Reading (List Token) := do
  let params ← if ← check .rightParen then pure [] else parametersFrom n 0
  let _ ← expect .rightParen .paramsClose
  return params

def assignTo (target : Expr) (equals : Token) (value : Expr) : Reading Expr := do
  match target with
  | .variable _ name => return .assign (← freshNode) name value
  | .get object name => return .set object name value
  | other =>
    report (.grammar (.token equals) .invalidAssignmentTarget)
    return other

mutual

/-- A declaration or statement; none if it cannot be read. The call is put on record. -/
def declaration : Nat → Reading (Option Stmt)
  | 0 => throw .outOfFuel
  | n + 1 => do
    let first := (← get).current
    let s ← tryCatch (some <$> declarationOrStatement n) fun
      | .error e => do
        report e
        Reading.synchronize
        return none
      | stop => throw stop
    record (.declared first (← get).current)
    return s

def declarationOrStatement : Nat → Reading Stmt
  | 0 => throw .outOfFuel
  | n + 1 =>
    branch .classKw (fun _ => classDeclaration n) do
      if ← atNamedFunction then
        let _ ← advance
        return .funDecl (← function n .function)
      else branch .varKw (fun _ => varDeclaration n) (statement n)

def classDeclaration : Nat → Reading Stmt
  | 0 => throw .outOfFuel
  | n + 1 => do
    let name ← expectName .className
    let _ ← expect .leftBrace .classOpen
    let methods ← methods n
    let _ ← expect .rightBrace .classClose
    return .classDecl name methods

def methods : Nat → Reading (List FunDecl)
  | 0 => throw .outOfFuel
  | n + 1 => do
    if (← check .rightBrace) || (← atEnd) then return []
    else
      let method ← function n .method
      return method :: (← methods n)

def function : Nat → Flavour → Reading FunDecl
  | 0, _ => throw .outOfFuel
  | n + 1, flavour => do
    let name ← expectName (.name flavour)
    let _ ← expect .leftParen (.paramsOpen flavour)
    let params ← parameters n
    let _ ← expect .leftBrace (.bodyOpen flavour)
    return .mk (some name) params (← block n)

def varDeclaration : Nat → Reading Stmt
  | 0 => throw .outOfFuel
  | n + 1 => do
    let name ← expectName .variableName
    let initializer ← branch .equal (fun _ => some <$> expression n) (pure none)
    let _ ← expect .semicolon .variableEnd
    return .varDecl name initializer

def statement : Nat → Reading Stmt
  | 0 => throw .outOfFuel
  | n + 1 =>
    branch .forKw (fun _ => forStatement n) <|
    branch .ifKw (fun _ => ifStatement n) <|
    branch .whileKw (fun _ => whileStatement n) <|
    branch .returnKw (fun keyword => returnStatement n keyword) <|
    branch .leftBrace (fun _ => .block <$> block n) <|
    branch .printKw (fun _ => printStatement n) <|
    expressionStatement n

def printStatement : Nat → Reading Stmt
  | 0 => throw .outOfFuel
  | n + 1 => do
    let value ← expression n
    let _ ← expect .semicolon .printEnd
    return .print value

def expressionStatement : Nat → Reading Stmt
  | 0 => throw .outOfFuel
  | n + 1 => do
    let e ← expression n
    let _ ← expect .semicolon .expressionEnd
    return .expr e

def forStatement : Nat → Reading Stmt
  | 0 => throw .outOfFuel
  | n + 1 => do
    let _ ← expect .leftParen .forOpen
    let initializer ←
      branch .semicolon (fun _ => pure none) <|
      branch .varKw (fun _ => some <$> varDeclaration n) <|
      some <$> expressionStatement n
    let condition ← if ← check .semicolon then pure none else some <$> expression n
    let _ ← expect .semicolon .forConditionEnd
    let increment ← if ← check .rightParen then pure none else some <$> expression n
    let _ ← expect .rightParen .forClose
    return .forLoop initializer condition increment (← statement n)

def ifStatement : Nat → Reading Stmt
  | 0 => throw .outOfFuel
  | n + 1 => do
    let _ ← expect .leftParen .ifOpen
    let condition ← expression n
    let _ ← expect .rightParen .ifClose
    let whenTrue ← statement n
    let whenFalse ← branch .elseKw (fun _ => some <$> statement n) (pure none)
    return .ifElse condition whenTrue whenFalse

def whileStatement : Nat → Reading Stmt
  | 0 => throw .outOfFuel
  | n + 1 => do
    let _ ← expect .leftParen .whileOpen
    let condition ← expression n
    let _ ← expect .rightParen .whileClose
    return .whileLoop condition (← statement n)

def returnStatement : Nat → Token → Reading Stmt
  | 0, _ => throw .outOfFuel
  | n + 1, keyword => do
    let value ← if ← check .semicolon then pure none else some <$> expression n
    let _ ← expect .semicolon .returnEnd
    return .ret keyword value

def block : Nat → Reading (List Stmt)
  | 0 => throw .outOfFuel
  | n + 1 => do
    let body ← declarations n
    let _ ← expect .rightBrace .blockClose
    return body

def declarations : Nat → Reading (List Stmt)
  | 0 => throw .outOfFuel
  | n + 1 => do
    if (← check .rightBrace) || (← atEnd) then return []
    else
      let first ← declaration n
      return first.toList ++ (← declarations n)

def expression : Nat → Reading Expr
  | 0 => throw .outOfFuel
  | n + 1 => do commaRest n (← assignment n)

def commaRest : Nat → Expr → Reading Expr
  | 0, _ => throw .outOfFuel
  | n + 1, left =>
    branch .comma
      (fun op => do commaRest n (.binary left op (← assignment n)))
      (pure left)

def assignment : Nat → Reading Expr
  | 0 => throw .outOfFuel
  | n + 1 => do
    let e ← tier n .disjunction
    branch .equal (fun equals => do assignTo e equals (← assignment n)) <|
    branch .question (fun question => conditional n e question) <|
    pure e

def conditional : Nat → Expr → Token → Reading Expr
  | 0, _, _ => throw .outOfFuel
  | n + 1, condition, question => do
    let whenTrue ← assignment n
    let _ ← expect .colon .conditionalColon
    return .conditional condition question whenTrue (← assignment n)

def tier : Nat → Tier → Reading Expr
  | 0, _ => throw .outOfFuel
  | n + 1, t => do tierRest n t (← operand n t)

def tierRest : Nat → Tier → Expr → Reading Expr
  | 0, _, _ => throw .outOfFuel
  | n + 1, t, left => do
    match ← acceptIf t.has with
    | some op => tierRest n t (t.node left op (← operand n t))
    | none => return left

def operand : Nat → Tier → Reading Expr
  | 0, _ => throw .outOfFuel
  | n + 1, t =>
    match t.tighter? with
    | some t' => tier n t'
    | none => unary n

def unary : Nat → Reading Expr
  | 0 => throw .outOfFuel
  | n + 1 => do
    match ← acceptIf (fun t => t.is .bang || t.is .minus) with
    | some op => return .unary op (← unary n)
    | none => callRest n (← primary n)

def callRest : Nat → Expr → Reading Expr
  | 0, _ => throw .outOfFuel
  | n + 1, e =>
    branch .leftParen
      (fun _ => do
        let arguments ← if ← check .rightParen then pure [] else argumentsFrom n 0
        let paren ← expect .rightParen .argumentsClose
        callRest n (.call e paren arguments)) <|
    branch .dot
      (fun _ => do
        let name ← expectName .propertyName
        callRest n (.get e name)) <|
    pure e

def argumentsFrom : Nat → Nat → Reading (List Expr)
  | 0, _ => throw .outOfFuel
  | n + 1, count => do
    if Rule.maxArity ≤ count then reportHere .tooManyArguments
    let argument ← assignment n
    let rest ← branch .comma (fun _ => argumentsFrom n (count + 1)) (pure [])
    return argument :: rest

def primary : Nat → Reading Expr
  | 0 => throw .outOfFuel
  | n + 1 => do
    match (← get).peek.kind with
    | .symbol .falseKw => let _ ← advance; return .literal (.bool false)
    | .symbol .trueKw => let _ ← advance; return .literal (.bool true)
    | .symbol .nilKw => let _ ← advance; return .literal .nil
    | .number x => let _ ← advance; return .literal (.number x)
    | .string s => let _ ← advance; return .literal (.string s)
    | .symbol .thisKw => let t ← advance; return .thisRef (← freshNode) t
    | .identifier => let t ← advance; return .variable (← freshNode) t
    | .symbol .leftParen =>
      let _ ← advance
      let inner ← expression n
      let _ ← expect .rightParen .groupClose
      return .group inner
    | .symbol .funKw =>
      let _ ← advance
      let _ ← expect .leftParen .literalParamsOpen
      let params ← parameters n
      let _ ← expect .leftBrace .literalBodyOpen
      return .function (.mk none params (← block n))
    | _ => fail .expression

end

/-- The declarations up to the end. -/
def program : Nat → Reading (List Stmt)
  | 0 => throw .outOfFuel
  | n + 1 => do
    if ← atEnd then return []
    else
      let first ← declaration n
      return first.toList ++ (← program n)

end ByPosition

end Scriptlet

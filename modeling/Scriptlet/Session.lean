import Scriptlet.Machine.Step
import Scriptlet.Program.Parser
import Scriptlet.Token.Lexer

namespace Scriptlet

/-!
# Sessions

Source texts that are analysed and run one after another on the same machine.

* `Outcome` — how an evaluation, an execution or a whole program ended.
* `Machine.evaluate`, `Machine.execute`, `Machine.interpret` — an expression, a statement, and a
  program.
* `Machine.executeBlock`, `Machine.callFunction` — statements in an environment of their own, and
  a function.
* `Session.analyze` — the statements of a source, their names resolved, and all that is wrong
  with it.
* `Session.run` — a source is run only if nothing is wrong with it.

What may run forever takes a bound on the number of steps per statement; the result is `none` if
the steps do not suffice.
-/

/-- How something ended. -/
inductive Outcome (α : Type) where
  | finished (a : α)
  | failed (e : Error)
  /-- A variable was not where its depth says. Nothing can be run after that. -/
  | desync (d : Desync)

namespace Machine

/-- Evaluate an expression. -/
def evaluate (host : Host) (fuel : Nat) (e : Expr) (m : Machine) :
    Option (Outcome Value × Machine) :=
  match runSteps host fuel (.eval e .done m) with
  | some (.value v _ m) => some (.finished v, m)
  | some (.failed e m) => some (.failed e, m)
  | some (.desync d m) => some (.desync d, m)
  | _ => none

/-- Execute a statement. -/
def execute (host : Host) (fuel : Nat) (s : Stmt) (m : Machine) :
    Option (Outcome Flow × Machine) :=
  match runSteps host fuel (.exec s .done m) with
  | some (.flow f _ m) => some (.finished f, m)
  | some (.failed e m) => some (.failed e, m)
  | some (.desync d m) => some (.desync d, m)
  | _ => none

/-- Execute statements in the given environment; behind them the current one is current
    again. -/
def executeBlock (host : Host) (fuel : Nat) (body : List Stmt) (env : Env) (m : Machine) :
    Option (Outcome Flow × Machine) :=
  match runSteps host fuel
      (.flow .normal (.sequence body (.leaveBlock m.env .done)) { m with env }) with
  | some (.flow f _ m) => some (.finished f, m)
  | some (.failed e m) => some (.failed e, m)
  | some (.desync d m) => some (.desync d, m)
  | _ => none

/-- Call a function from outside of all programs. Such a call is not counted among those in
    progress, and nobody has compared the number of arguments with that of the parameters. -/
def callFunction (host : Host) (fuel : Nat) (callee : Closure) (arguments : List Value)
    (m : Machine) : Option (Outcome Value × Machine) :=
  let (f, m) := m.newFrame ((callee.decl.params.map (·.lexeme)).zip arguments)
  match m.executeBlock host fuel callee.decl.body (f :: callee.env) with
  | some (.finished flow, m) =>
    match Step.callResult callee flow .done m with
    | .value v _ m => some (.finished v, m)
    | .desync d m => some (.desync d, m)
    | _ => none
  | some (.failed e, m) => some (.failed e, m)
  | some (.desync d, m) => some (.desync d, m)
  | none => none

/-- Flush the output: if that fails, the failure takes the place of the outcome. -/
def flush (m : Machine) (o : Outcome Unit) : Outcome Unit :=
  if m.sink.flushFails then .failed (.output .flushFailed) else o

/-- Execute statements up to the first error, and flush the output. A `return` outside of all
    functions ends only the statement it stands in. -/
def interpret (host : Host) (fuel : Nat) : List Stmt → Machine → Option (Outcome Unit × Machine)
  | [], m => some (m.flush (.finished ()), m)
  | s :: rest, m =>
    match execute host fuel s m with
    | none => none
    | some (.finished _, m) => interpret host fuel rest m
    | some (.failed e, m) =>
      let m := { m with env := globals }
      some (m.flush (.failed e), m)
    | some (.desync d, m) => some (.desync d, m)

end Machine

/-! ### Sessions -/

/-- A machine, and the next number for the nodes of the next source. -/
structure Session where
  machine : Machine
  nextNode : NodeId

/-- The statements of a source, and all that is wrong with it. -/
structure Analysis where
  statements : List Stmt
  report : Report

/-- How running a source ended. -/
inductive Verdict where
  /-- Something is wrong with the source; nothing was run. -/
  | rejected (report : Report)
  | ran (outcome : Outcome Unit)

/-- How a statement on its own ended: an expression has a value, any other statement a flow. -/
inductive Result where
  | value (v : Value)
  | flow (f : Flow)
  | failed (e : Error)

namespace Session

/-- A session on a new machine. -/
def new (sink : Sink) : Session := ⟨Machine.new sink, 0⟩

/-- The statements of a token list, names unresolved; `report` holds what was found before. -/
def parseTokens (s : Session) (tokens : List Token) (report : Report) : Analysis × Session :=
  let p := Program.parse tokens s.nextNode report
  (⟨p.statements, p.report⟩, { s with nextNode := p.nextNode })

/-- The statements of a token list, names resolved. Names are resolved also if there were errors
    before. -/
def analyzeTokens (s : Session) (tokens : List Token) (report : Report) : Analysis × Session :=
  let (a, s) := s.parseTokens tokens report
  let (depths, report) := Resolution.resolve a.statements s.machine.depths a.report
  ({ a with report }, { s with machine := { s.machine with depths } })

/-- The lexical errors of a source. -/
def lexicalReport (source : String) : Report := ⟨(Error.ofSource source).toArray⟩

/-- The statements of a source, names unresolved. -/
def parse (s : Session) (source : String) : Analysis × Session :=
  s.parseTokens (Token.ofSource source) (lexicalReport source)

/-- The statements of a source, names resolved, and all that is wrong with it: first the lexical
    errors, then those of the grammar, then those of scoping. -/
def analyze (s : Session) (source : String) : Analysis × Session :=
  s.analyzeTokens (Token.ofSource source) (lexicalReport source)

/-- Run statements. -/
def interpret (host : Host) (fuel : Nat) (statements : List Stmt) (s : Session) :
    Option (Outcome Unit × Session) :=
  match s.machine.interpret host fuel statements with
  | some (o, machine) => some (o, { s with machine })
  | none => none

/-- Run a source, unless something is wrong with it. -/
def run (host : Host) (fuel : Nat) (source : String) (s : Session) :
    Option (Verdict × Session) :=
  let (a, s) := s.analyze source
  if a.report.hadError then some (.rejected a.report, s)
  else
    match s.interpret host fuel a.statements with
    | some (o, s) => some (.ran o, s)
    | none => none

/-- Run one statement on its own. -/
def result (host : Host) (fuel : Nat) (statement : Stmt) (m : Machine) :
    Option (Except Desync Result × Machine) :=
  match statement with
  | .expr e =>
    match m.evaluate host fuel e with
    | some (.finished v, m) => some (.ok (.value v), m)
    | some (.failed e, m) => some (.ok (.failed e), m)
    | some (.desync d, m) => some (.error d, m)
    | none => none
  | s =>
    match m.execute host fuel s with
    | some (.finished f, m) => some (.ok (.flow f), m)
    | some (.failed e, m) => some (.ok (.failed e), m)
    | some (.desync d, m) => some (.error d, m)
    | none => none

/-- Run statements one by one, also behind errors, without flushing the output. Each result
    comes with the machine as it was right after the statement. -/
def results (host : Host) (fuel : Nat) :
    List Stmt → Machine → Option (Except Desync (List (Result × Machine)) × Machine)
  | [], m => some (.ok [], m)
  | s :: rest, m =>
    match result host fuel s m with
    | none => none
    | some (.error d, m) => some (.error d, m)
    | some (.ok r, m) =>
      match results host fuel rest m with
      | some (.ok rs, last) => some (.ok ((r, m) :: rs), last)
      | other => other

/-- Bind a function of the host to a global name. -/
def defineNative (s : Session) (native : Native) : Session :=
  { s with machine := s.machine.defineNative native }

/-- The text printed since the last time, taken away. -/
def takeOutput (s : Session) : String × Session :=
  (s.machine.sink.text,
    { s with machine := { s.machine with sink := s.machine.sink.drain } })

end Session

end Scriptlet

import Scriptlet.Machine
import Scriptlet.Value.Operator

namespace Scriptlet

/-!
# Steps

Programs run step by step. What is left to do once the expression or statement at hand is
finished is kept in a continuation.

* `ExprCont`, `StmtCont` — what happens to the value of an expression, or to the way in which a
  statement ended.
* `State` — what is being done, what is left, and the machine.
* `step` — one step. Calls, blocks and loops only change the continuation, so a run needs no
  more room than its own data.
* `ExprCont.unwind`, `StmtCont.unwind` — leaving everything in progress after an error: the
  outermost environment is current again and all calls are over.
-/

/-- How a statement ended. -/
inductive Flow where
  | normal
  /-- A `return` is on its way to the call that it ends. -/
  | returned (v : Value)

/-! ### Continuations -/

mutual

/-- What happens to the value of an expression. -/
inductive ExprCont where
  | done
  | assign (id : NodeId) (name : Token) (k : ExprCont)
  | unary (op : Token) (k : ExprCont)
  /-- The left operand; the right one follows. -/
  | left (op : Token) (right : Expr) (k : ExprCont)
  /-- The right operand; the left one is known. -/
  | right (first : Value) (op : Token) (k : ExprCont)
  | logical (op : Token) (right : Expr) (k : ExprCont)
  | choose (whenTrue whenFalse : Expr) (k : ExprCont)
  /-- The function of a call; its arguments follow. -/
  | callee (paren : Token) (arguments : List Expr) (k : ExprCont)
  /-- An argument; `before` holds the earlier ones, the last of them first. -/
  | argument (callee : Value) (paren : Token) (before : List Value) (after : List Expr)
      (k : ExprCont)
  | property (name : Token) (k : ExprCont)
  /-- The object of an assignment to a field; the value follows. -/
  | fieldOwner (name : Token) (value : Expr) (k : ExprCont)
  | fieldValue (object : ObjectId) (name : Token) (k : ExprCont)
  /-- The result of an initializer, in whose place the new object stands. -/
  | construct (object : Value) (k : ExprCont)
  | discard (k : StmtCont)
  | print (k : StmtCont)
  | define (name : Token) (k : StmtCont)
  | branch (whenTrue : Stmt) (whenFalse : Option Stmt) (k : StmtCont)
  /-- The condition of a loop. -/
  | test (condition : Expr) (body : Stmt) (k : StmtCont)
  | ret (k : StmtCont)

/-- What happens when a statement has ended. -/
inductive StmtCont where
  | done
  /-- The statements that follow. -/
  | sequence (rest : List Stmt) (k : StmtCont)
  /-- The end of a block: `env` is current again. -/
  | leaveBlock (env : Env) (k : StmtCont)
  /-- The end of a loop's body: the condition is tested again. -/
  | again (condition : Expr) (body : Stmt) (k : StmtCont)
  /-- The end of a call: `env` is current again, and the call has a value. -/
  | leaveCall (env : Env) (callee : Closure) (k : ExprCont)

end

mutual

/-- The machine after an error has left everything in progress. -/
def ExprCont.unwind : ExprCont → Machine → Machine
  | .done, m => m
  | .assign _ _ k, m => k.unwind m
  | .unary _ k, m => k.unwind m
  | .left _ _ k, m => k.unwind m
  | .right _ _ k, m => k.unwind m
  | .logical _ _ k, m => k.unwind m
  | .choose _ _ k, m => k.unwind m
  | .callee _ _ k, m => k.unwind m
  | .argument _ _ _ _ k, m => k.unwind m
  | .property _ k, m => k.unwind m
  | .fieldOwner _ _ k, m => k.unwind m
  | .fieldValue _ _ k, m => k.unwind m
  | .construct _ k, m => k.unwind m
  | .discard k, m => k.unwind m
  | .print k, m => k.unwind m
  | .define _ k, m => k.unwind m
  | .branch _ _ k, m => k.unwind m
  | .test _ _ k, m => k.unwind m
  | .ret k, m => k.unwind m

/-- The machine after an error has left everything in progress. -/
def StmtCont.unwind : StmtCont → Machine → Machine
  | .done, m => m
  | .sequence _ k, m => k.unwind m
  | .leaveBlock env k, m => k.unwind { m with env }
  | .again _ _ k, m => k.unwind m
  | .leaveCall env _ k, m => k.unwind { m with env, callDepth := m.callDepth - 1 }

end

/-! ### States -/

/-- A run at one moment. -/
inductive State where
  | eval (e : Expr) (k : ExprCont) (m : Machine)
  | exec (s : Stmt) (k : StmtCont) (m : Machine)
  | value (v : Value) (k : ExprCont) (m : Machine)
  | flow (f : Flow) (k : StmtCont) (m : Machine)
  /-- The run is over: an error ended it. -/
  | failed (e : Error) (m : Machine)
  /-- The run is over: a variable was not where its depth says. -/
  | desync (d : Desync) (m : Machine)

namespace State

/-- Nothing is left to be done. -/
def isFinal : State → Bool
  | .value _ .done _ => true
  | .flow _ .done _ => true
  | .failed _ _ => true
  | .desync _ _ => true
  | _ => false

/-- The machine of a state. -/
def machine : State → Machine
  | .eval _ _ m => m
  | .exec _ _ m => m
  | .value _ _ m => m
  | .flow _ _ m => m
  | .failed _ m => m
  | .desync _ m => m

end State

/-! ### Steps -/

namespace Step

/-- An error ends the run. -/
def fail (e : Error) (k : ExprCont) (m : Machine) : State := .failed e (k.unwind m)

/-- A runtime error at a token ends the run. -/
def faultAt (token : Token) (fault : RuntimeFault) (k : ExprCont) (m : Machine) : State :=
  fail (.runtime token fault) k m

/-- Go on with the result of an operator. -/
def operatorResult (op : Token) (r : Except RuntimeFault Value) (k : ExprCont) (m : Machine) :
    State :=
  match r with
  | .ok v => .value v k m
  | .error fault => faultAt op fault k m

/-- Read the variable that a node names: at its depth, or among the globals. -/
def readVariable (id : NodeId) (name : Token) (k : ExprCont) (m : Machine) : State :=
  match m.depths[id]? with
  | some depth =>
    match m.store.lookupAt? m.env depth name.lexeme with
    | some v => .value v k m
    | none => .desync ⟨.read, name.lexeme⟩ m
  | none =>
    match m.store.lookup? Machine.globals name.lexeme with
    | some v => .value v k m
    | none => faultAt name (.undefinedVariable name.lexeme) k m

/-- Assign to the variable that a node names: at its depth, or among the globals. -/
def writeVariable (id : NodeId) (name : Token) (v : Value) (k : ExprCont) (m : Machine) :
    State :=
  match m.depths[id]? with
  | some depth =>
    match m.store.holderAt? m.env depth name.lexeme with
    | some f => .value v k (m.assignIn f name.lexeme v)
    | none => .desync ⟨.assignment, name.lexeme⟩ m
  | none =>
    match m.store.holder? Machine.globals name.lexeme with
    | some f => .value v k (m.assignIn f name.lexeme v)
    | none => faultAt name (.undefinedVariable name.lexeme) k m

/-- The frame that is found holds the variable, so the assignment binds it as `define` does. -/
theorem writeVariable_eq (id : NodeId) (name : Token) (v : Value) (k : ExprCont) (m : Machine) :
    writeVariable id name v k m =
      match m.depths[id]? with
      | some depth =>
        match m.store.holderAt? m.env depth name.lexeme with
        | some f => .value v k (m.defineIn f name.lexeme v)
        | none => .desync ⟨.assignment, name.lexeme⟩ m
      | none =>
        match m.store.holder? Machine.globals name.lexeme with
        | some f => .value v k (m.defineIn f name.lexeme v)
        | none => faultAt name (.undefinedVariable name.lexeme) k m := by
  have hassign {f : FrameId} (h : m.store.holds f name.lexeme = true) :
      m.assignIn f name.lexeme v = m.defineIn f name.lexeme v := by
    unfold Machine.assignIn Machine.defineIn
    rw [Store.assign_eq_define fun _ => h]
  unfold writeVariable
  split
  · split
    · next h => rw [hassign (Store.holds_of_holderAt? h)]
    · rfl
  · split
    · next h => rw [hassign (Store.holds_of_holder? h)]
    · rfl

/-- A property of an object: a field, or else a method that belongs to it. -/
def readProperty (object : Value) (name : Token) (k : ExprCont) (m : Machine) : State :=
  match object with
  | .object id cls =>
    match (m.store.fields id)[name.lexeme]? with
    | some v => .value v k m
    | none =>
      match cls.method? name.lexeme with
      | some method =>
        let (bound, m) := m.bindMethod method object
        let (v, m) := m.newFunction bound
        .value v k m
      | none => faultAt name (.undefinedProperty name.lexeme) k m
  | _ => faultAt name .noProperties k m

/-- Start a function: its parameters are bound in a frame of their own, and its body runs. -/
def enter (callee : Closure) (arguments : List Value) (k : ExprCont) (m : Machine) : State :=
  let caller := m.env
  let calls := m.callDepth + 1
  let (f, m) := m.newFrame ((callee.decl.params.map (·.lexeme)).zip arguments)
  .flow .normal (.sequence callee.decl.body (.leaveCall caller callee k))
    { m with env := f :: callee.env, callDepth := calls }

/-- Why a call of a function or class is refused, if it is: the number of arguments comes
    before the number of calls in progress. -/
def refusal? (host : Host) (m : Machine) (expected got : Nat) : Option RuntimeFault :=
  if expected ≠ got then some (.arity expected got)
  else if host.maxCalls ≤ m.callDepth then some .stackOverflow
  else none

/-- Make an object, and run the initializer of its class on it if there is one. -/
def instantiate (cls : Class) (arguments : List Value) (k : ExprCont) (m : Machine) : State :=
  let (id, store) := m.store.newObject
  let m := { m with store }
  let object := Value.object id cls
  match cls.initializer? with
  | none => .value object k m
  | some initializer =>
    let (bound, m) := m.bindMethod initializer object
    enter bound arguments (.construct object k) m

/-- Run a function of the host. -/
def callNative (host : Host) (native : Native) (paren : Token) (arguments : List Value)
    (k : ExprCont) (m : Machine) : State :=
  match native.action with
  | .clock => .value (.number (host.clock m.ticks)) k { m with ticks := m.ticks + 1 }
  | .apply f =>
    match f arguments with
    | .ok v => .value v k m
    | .error message => faultAt paren (.native message) k m

/-- Call a value. -/
def call (host : Host) (callee : Value) (paren : Token) (arguments : List Value) (k : ExprCont)
    (m : Machine) : State :=
  match callee with
  | .native index =>
    match m.natives[index]? with
    | some native =>
      if native.arity ≠ arguments.length then
        faultAt paren (.arity native.arity arguments.length) k m
      else callNative host native paren arguments k m
    | none => faultAt paren .notCallable k m
  | .function _ closure =>
    match refusal? host m closure.arity arguments.length with
    | some fault => faultAt paren fault k m
    | none => enter closure arguments k m
  | .classObj _ cls =>
    match refusal? host m cls.arity arguments.length with
    | some fault => faultAt paren fault k m
    | none => instantiate cls arguments k m
  | _ => faultAt paren .notCallable k m

/-- Evaluate the next argument, or make the call if there is none. -/
def nextArgument (host : Host) (callee : Value) (paren : Token) (before : List Value)
    (after : List Expr) (k : ExprCont) (m : Machine) : State :=
  match after with
  | e :: rest => .eval e (.argument callee paren before rest k) m
  | [] => call host callee paren before.reverse k m

/-- Start to evaluate an expression. -/
def eval (e : Expr) (k : ExprCont) (m : Machine) : State :=
  match e with
  | .literal value => .value (Value.ofLiteral value) k m
  | .group inner => .eval inner k m
  | .variable id name => readVariable id name k m
  | .thisRef id keyword => readVariable id keyword k m
  | .assign id name value => .eval value (.assign id name k) m
  | .unary op operand => .eval operand (.unary op k) m
  | .binary left op right => .eval left (.left op right k) m
  | .logical left op right => .eval left (.logical op right k) m
  | .conditional condition _ whenTrue whenFalse =>
    .eval condition (.choose whenTrue whenFalse k) m
  | .call callee paren arguments => .eval callee (.callee paren arguments k) m
  | .get object name => .eval object (.property name k) m
  | .set object name value => .eval object (.fieldOwner name value k) m
  | .function decl =>
    let closure : Closure := { decl, env := m.env, isInitializer := false }
    let (v, m) := m.newFunction closure
    .value v k m

/-- Start to execute a statement. -/
def exec (s : Stmt) (k : StmtCont) (m : Machine) : State :=
  match s with
  | .expr e => .eval e (.discard k) m
  | .print e => .eval e (.print k) m
  | .varDecl name none => .flow .normal k (m.define name.lexeme .nil)
  | .varDecl name (some e) => .eval e (.define name k) m
  | .block body =>
    let outer := m.env
    let (f, m) := m.newFrame []
    .flow .normal (.sequence body (.leaveBlock outer k)) { m with env := f :: outer }
  | .ifElse condition whenTrue whenFalse => .eval condition (.branch whenTrue whenFalse k) m
  | .whileLoop condition body => .eval condition (.test condition body k) m
  | .funDecl decl =>
    let closure : Closure := { decl, env := m.env, isInitializer := false }
    let (v, m) := m.newFunction closure
    .flow .normal k (m.define decl.label v)
  | .ret _ none => .flow (.returned .nil) k m
  | .ret _ (some e) => .eval e (.ret k) m
  | .classDecl name methods =>
    let cls : Class := { name := name.lexeme, methods, env := m.env }
    let (v, m) := m.newClass cls
    -- The name stands for nothing until the class is there.
    .flow .normal k ((m.define name.lexeme .nil).assign name.lexeme v)

theorem exec_classDecl (name : Token) (methods : List FunDecl) (k : StmtCont) (m : Machine) :
    exec (.classDecl name methods) k m =
      .flow .normal k
        (({ m with nextId := m.nextId + 1 }.define name.lexeme .nil).define name.lexeme
          (.classObj m.nextId ⟨name.lexeme, methods, m.env⟩)) :=
  congrArg (State.flow .normal k) (Machine.assign_define _ _ _ _)

/-- Hand the value of an expression on. -/
def resumeValue (host : Host) (v : Value) (k : ExprCont) (m : Machine) : State :=
  match k with
  | .done => .value v .done m
  | .assign id name k => writeVariable id name v k m
  | .unary op k => operatorResult op (v.applyUnary op) k m
  | .left op right k => .eval right (.right v op k) m
  | .right first op k => operatorResult op (first.applyBinary op v) k m
  | .logical op right k => if v.settles op then .value v k m else .eval right k m
  | .choose whenTrue whenFalse k => .eval (if v.isTruthy then whenTrue else whenFalse) k m
  | .callee paren arguments k => nextArgument host v paren [] arguments k m
  | .argument callee paren before after k =>
    nextArgument host callee paren (v :: before) after k m
  | .property name k => readProperty v name k m
  | .fieldOwner name value k =>
    match v with
    | .object id _ => .eval value (.fieldValue id name k) m
    | _ => faultAt name .noFields k m
  | .fieldValue object name k =>
    .value v k { m with store := m.store.setField object name.lexeme v }
  | .construct object k => .value object k m
  | .discard k => .flow .normal k m
  | .print k =>
    let (complete, sink) := m.sink.write (v.display ++ "\n")
    let m := { m with sink }
    if complete then .flow .normal k m else .failed (.output .full) (k.unwind m)
  | .define name k => .flow .normal k (m.define name.lexeme v)
  | .branch whenTrue whenFalse k =>
    if v.isTruthy then .exec whenTrue k m
    else
      match whenFalse with
      | some s => .exec s k m
      | none => .flow .normal k m
  | .test condition body k =>
    if v.isTruthy then .exec body (.again condition body k) m else .flow .normal k m
  | .ret k => .flow (.returned v) k m

/-- The value of a call whose body ended: an initializer yields its object, any other function
    what it returned. -/
def callResult (callee : Closure) (f : Flow) (k : ExprCont) (m : Machine) : State :=
  if callee.isInitializer then
    match m.store.lookupAt? callee.env 0 "this" with
    | some v => .value v k m
    | none => .desync ⟨.read, "this"⟩ m
  else
    match f with
    | .normal => .value .nil k m
    | .returned v => .value v k m

/-- Go on after a statement. -/
def resumeFlow (f : Flow) (k : StmtCont) (m : Machine) : State :=
  match k with
  | .done => .flow f .done m
  | .sequence rest k =>
    match f, rest with
    | .normal, s :: rest => .exec s (.sequence rest k) m
    | .normal, [] => .flow .normal k m
    | .returned v, _ => .flow (.returned v) k m
  | .leaveBlock env k => .flow f k { m with env }
  | .again condition body k =>
    match f with
    | .normal => .eval condition (.test condition body k) m
    | .returned v => .flow (.returned v) k m
  | .leaveCall env callee k => callResult callee f k { m with env, callDepth := m.callDepth - 1 }

end Step

/-- One step of a run; a finished run stays as it is. -/
def step (host : Host) : State → State
  | .eval e k m => Step.eval e k m
  | .exec s k m => Step.exec s k m
  | .value v k m => Step.resumeValue host v k m
  | .flow f k m => Step.resumeFlow f k m
  | .failed e m => .failed e m
  | .desync d m => .desync d m

/-- Run until nothing is left to be done, for at most `fuel` steps; none if they do not
    suffice. -/
def runSteps (host : Host) : Nat → State → Option State
  | 0, s => if s.isFinal then some s else none
  | fuel + 1, s => if s.isFinal then some s else runSteps host fuel (step host s)

end Scriptlet

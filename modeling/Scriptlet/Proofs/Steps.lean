import Scriptlet.Machine.Step

namespace Scriptlet

/-!
# What a step does

Whatever the values and the store are, a step takes away at most the innermost part of the
continuation, puts some parts upon it, and goes on from there; or it ends the run.

* `Cont`, `Cont.rest?` — a continuation of either kind, and what is left of it behind its
  innermost part.
* `Machine.Alters` — a machine changes in its store and its counters only.
* `State.Hands k` — a value is handed on to `k`, or the run is over: all that operators,
  variables, properties and functions of the host do.
* `Step.call_cases` — a call does that, or enters a function, or makes an object.
* `Cont.Grows` — parts are put upon a continuation, and blocks and calls are entered.
* `State.Faults`, `State.Strays` — states whose next step may end in a runtime error, or find a
  variable out of place.
* `State.Drops`, `State.Goes` — what a step takes away, and what it does from there on;
  `State.step_cases` — all steps are of this kind.
-/

/-! ### Continuations -/

/-- A continuation of either kind. -/
inductive Cont where
  | expr (k : ExprCont)
  | stmt (k : StmtCont)

namespace Cont

/-- What is left behind the innermost part of a continuation. -/
def rest? : Cont → Option Cont
  | .expr .done => none
  | .expr (.assign _ _ k) | .expr (.unary _ k) | .expr (.left _ _ k) | .expr (.right _ _ k)
  | .expr (.logical _ _ k) | .expr (.choose _ _ k) | .expr (.callee _ _ k)
  | .expr (.argument _ _ _ _ k) | .expr (.property _ k) | .expr (.fieldOwner _ _ k)
  | .expr (.fieldValue _ _ k) | .expr (.construct _ k) => some (.expr k)
  | .expr (.discard k) | .expr (.print k) | .expr (.define _ k) | .expr (.branch _ _ k)
  | .expr (.test _ _ k) | .expr (.ret k) => some (.stmt k)
  | .stmt .done => none
  | .stmt (.sequence _ k) | .stmt (.leaveBlock _ k) | .stmt (.again _ _ k) => some (.stmt k)
  | .stmt (.leaveCall _ _ k) => some (.expr k)

/-- The machine after an error has left everything in progress. -/
def unwind : Cont → Machine → Machine
  | .expr k => k.unwind
  | .stmt k => k.unwind

/-- The innermost part is neither the end of a block nor that of a call. -/
def isPlain : Cont → Bool
  | .stmt (.leaveBlock _ _) | .stmt (.leaveCall _ _ _) => false
  | _ => true

/-- The machine behind the innermost part of a continuation. -/
def leave : Cont → Machine → Machine
  | .stmt (.leaveBlock env _), m => { m with env }
  | .stmt (.leaveCall env _ _), m => { m with env, callDepth := m.callDepth - 1 }
  | _, m => m

end Cont

/-- Only the store and the counters of the machine have changed. -/
def Machine.Alters (m m' : Machine) : Prop :=
  m' = { m with store := m'.store, nextId := m'.nextId, ticks := m'.ticks }

/-- A definition changes the store only. -/
theorem Machine.Alters.define (m : Machine) (x : String) (v : Value) :
    m.Alters (m.define x v) := by
  unfold Machine.define
  split <;> rfl

/-! ### Handing on a value -/

/-- A call has no result: of a value that cannot be called, with a wrong number of arguments, with
    too many calls in progress, or because a function of the host says so. -/
def RuntimeFault.isOfCall : RuntimeFault → Bool
  | .notCallable => true
  | .arity _ _ => true
  | .stackOverflow => true
  | .native _ => true
  | _ => false

/-- A value is handed on to the continuation, or one of some faults is shown at a token, or a
    variable is out of place. -/
inductive State.Hands (k : ExprCont) (m : Machine) (token : Token) (faults : RuntimeFault → Prop)
    (strays : Prop) : State → Prop
  | value {v m'} (h : m.Alters m') : Hands k m token faults strays (.value v k m')
  | failed {fault} (h : faults fault) :
      Hands k m token faults strays (.failed (.runtime token fault) (k.unwind m))
  | desync {d} (h : strays) : Hands k m token faults strays (.desync d m)

namespace Step

variable {host : Host} {k : ExprCont} {m : Machine}

/-- What an operator yields is handed on, or its fault is shown. -/
theorem hands_operatorResult (op : Token) (r : Except RuntimeFault Value) :
    (operatorResult op r k m).Hands k m op (r = .error ·) False := by
  cases r with
  | ok v => exact .value rfl
  | error fault => exact .failed rfl

/-- A variable is read, or is unknown, or is out of place. -/
theorem hands_readVariable (id : NodeId) (name : Token) :
    (readVariable id name k m).Hands k m name (· = .undefinedVariable name.lexeme) True := by
  unfold readVariable
  split
  · split
    · exact .value rfl
    · exact .desync trivial
  · split
    · exact .value rfl
    · exact .failed rfl

/-- A variable is assigned to, or is unknown, or is out of place. -/
theorem hands_writeVariable (id : NodeId) (name : Token) (v : Value) :
    (writeVariable id name v k m).Hands k m name (· = .undefinedVariable name.lexeme) True := by
  unfold writeVariable
  split
  · split
    · exact .value rfl
    · exact .desync trivial
  · split
    · exact .value rfl
    · exact .failed rfl

/-- A field or method is found, or the fault is shown at the name. -/
theorem hands_readProperty (object : Value) (name : Token) :
    (readProperty object name k m).Hands k m name
      (fun fault => fault = .undefinedProperty name.lexeme ∨ fault = .noProperties) False := by
  unfold readProperty
  split
  · split
    · exact .value rfl
    · split
      · exact .value rfl
      · exact .failed (.inl rfl)
  · exact .failed (.inr rfl)

/-- A function of the host yields a value or a fault. -/
theorem hands_callNative (native : Native) (paren : Token) (arguments : List Value) :
    (callNative host native paren arguments k m).Hands k m paren (·.isOfCall = true) False := by
  unfold callNative
  split
  · exact .value rfl
  · split
    · exact .value rfl
    · exact .failed rfl

/-- A call yields a value, unless `this` is out of place. -/
theorem hands_callResult (callee : Closure) (f : Flow) (token : Token) :
    (callResult callee f k m).Hands k m token (fun _ => False) True := by
  unfold callResult
  split
  · split
    · exact .value rfl
    · exact .desync trivial
  · split <;> exact .value rfl

/-- Of the machine, only the number of calls in progress matters. -/
theorem refusal?_congr {m' : Machine} (h : m'.callDepth = m.callDepth) (expected got : Nat) :
    refusal? host m' expected got = refusal? host m expected got := by
  unfold refusal?
  rw [h]

/-- A call that is refused has too many or too few arguments, or there is no room for it. -/
theorem refusal?_cases (host : Host) (m : Machine) (expected got : Nat) :
    (∃ fault, refusal? host m expected got = some fault ∧ fault.isOfCall = true) ∨
      refusal? host m expected got = none ∧ m.callDepth < host.maxCalls := by
  unfold refusal?
  split
  · exact .inl ⟨_, rfl, rfl⟩
  · split
    · exact .inl ⟨_, rfl, rfl⟩
    · next hroom => exact .inr ⟨rfl, Nat.lt_of_not_le hroom⟩

/-- A call hands on a value at once, or there is room for it and a function is entered or an
    object is made. -/
theorem call_cases (host : Host) (k : ExprCont) (m : Machine) (callee : Value) (paren : Token)
    (arguments : List Value) :
    (call host callee paren arguments k m).Hands k m paren (·.isOfCall = true) False ∨
      (∃ id closure, callee = .function id closure ∧ m.callDepth < host.maxCalls ∧
        call host callee paren arguments k m = enter closure arguments k m) ∨
      ∃ id cls, callee = .classObj id cls ∧ m.callDepth < host.maxCalls ∧
        call host callee paren arguments k m = instantiate cls arguments k m := by
  cases callee with
  | native index =>
    left
    unfold call
    simp only
    split
    · split
      · exact .failed rfl
      · exact hands_callNative _ paren arguments
    · exact .failed rfl
  | function id closure =>
    unfold call
    obtain ⟨fault, hrefusal, hfault⟩ | ⟨hrefusal, hroom⟩ :=
      refusal?_cases host m closure.arity arguments.length
    · simp only [hrefusal]
      exact .inl (.failed hfault)
    · simp only [hrefusal]
      exact .inr (.inl ⟨id, closure, rfl, hroom, rfl⟩)
  | classObj id cls =>
    unfold call
    obtain ⟨fault, hrefusal, hfault⟩ | ⟨hrefusal, hroom⟩ :=
      refusal?_cases host m cls.arity arguments.length
    · simp only [hrefusal]
      exact .inl (.failed hfault)
    · simp only [hrefusal]
      exact .inr (.inr ⟨id, cls, rfl, hroom, rfl⟩)
  | nil | bool | number | string | object => exact .inl (.failed rfl)

end Step

/-! ### Steps -/

/-- Parts are put upon the continuation `c`. Where a block or a call is entered, its end keeps the
    environment that is current, and there is room for a call. -/
inductive Cont.Grows (host : Host) (c : Cont) (m : Machine) : Cont → Machine → Prop
  | refl : Grows host c m c m
  | alter {c' m' m''} (h : Grows host c m c' m') (ha : m'.Alters m'') : Grows host c m c' m''
  | part {c' c'' m'} (h : Grows host c m c' m') (hrest : c''.rest? = some c')
      (hplain : c''.isPlain = true) : Grows host c m c'' m'
  | block {k m' env} (h : Grows host c m (.stmt k) m') :
      Grows host c m (.stmt (.leaveBlock m'.env k)) { m' with env }
  | call {k m' env callee} (h : Grows host c m (.expr k) m')
      (hroom : m'.callDepth < host.maxCalls) : Grows host c m (.stmt (.leaveCall m'.env callee k))
        { m' with env, callDepth := m'.callDepth + 1 }

/-- The next step may end in the runtime error. -/
inductive State.Faults : State → Token → RuntimeFault → Prop
  | read {id name k m} :
      Faults (.eval (.variable id name) k m) name (.undefinedVariable name.lexeme)
  | this {id keyword k m} :
      Faults (.eval (.thisRef id keyword) k m) keyword (.undefinedVariable keyword.lexeme)
  | assign {v id name k m} :
      Faults (.value v (.assign id name k) m) name (.undefinedVariable name.lexeme)
  | unary {v op k m fault} (h : v.applyUnary op = .error fault) :
      Faults (.value v (.unary op k) m) op fault
  | binary {v first op k m fault} (h : first.applyBinary op v = .error fault) :
      Faults (.value v (.right first op k) m) op fault
  | callee {v paren arguments k m fault} (h : fault.isOfCall = true) :
      Faults (.value v (.callee paren arguments k) m) paren fault
  | argument {v callee paren before after k m fault} (h : fault.isOfCall = true) :
      Faults (.value v (.argument callee paren before after k) m) paren fault
  | property {v name k m fault}
      (h : fault = .undefinedProperty name.lexeme ∨ fault = .noProperties) :
      Faults (.value v (.property name k) m) name fault
  | owner {v name value k m} : Faults (.value v (.fieldOwner name value k) m) name .noFields

/-- The next step may find a variable out of place. -/
inductive State.Strays : State → Prop
  | read {id name k m} : Strays (.eval (.variable id name) k m)
  | this {id keyword k m} : Strays (.eval (.thisRef id keyword) k m)
  | assign {v id name k m} : Strays (.value v (.assign id name k) m)
  | result {f env callee k m} : Strays (.flow f (.leaveCall env callee k) m)

/-- What a step from `t` comes to, where `c` and `m` are left once the innermost part of the
    continuation is taken away. -/
inductive State.Goes (host : Host) (t : State) (c : Cont) (m : Machine) : State → Prop
  | eval {e k m'} (h : c.Grows host m (.expr k) m') : Goes host t c m (.eval e k m')
  | exec {s k m'} (h : c.Grows host m (.stmt k) m') : Goes host t c m (.exec s k m')
  | value {v k m'} (h : c.Grows host m (.expr k) m') : Goes host t c m (.value v k m')
  | flow {f k m'} (h : c.Grows host m (.stmt k) m') : Goes host t c m (.flow f k m')
  | wrote {k text} (h : c = .stmt k) :
      Goes host t c m (.flow .normal k { m with sink := (m.sink.write text).2 })
  | full {text} :
      Goes host t c m (.failed (.output .full) (c.unwind { m with sink := (m.sink.write text).2 }))
  | failed {token fault} (h : t.Faults token fault) :
      Goes host t c m (.failed (.runtime token fault) (c.unwind m))
  | desync {d} (h : t.Strays) : Goes host t c m (.desync d m)

section Goes

variable {host : Host} {t : State} {m : Machine}

/-- To hand on a value is a way in which a step goes on. -/
theorem State.Hands.goes {t' : State} {k : ExprCont} {token : Token} {faults : RuntimeFault → Prop}
    {strays : Prop} (h : t'.Hands k m token faults strays)
    (hfaults : ∀ fault, faults fault → t.Faults token fault) (hstrays : strays → t.Strays) :
    t.Goes host (.expr k) m t' := by
  cases h with
  | value ha => exact .value (.alter .refl ha)
  | failed hf => exact .failed (hfaults _ hf)
  | desync hs => exact .desync (hstrays hs)

namespace Step

/-- The next argument is evaluated, or the call is made. -/
theorem goes_nextArgument (k : ExprCont) (callee : Value) (paren : Token) (before : List Value)
    (after : List Expr) (hfaults : ∀ fault, fault.isOfCall = true → t.Faults paren fault) :
    t.Goes host (.expr k) m (nextArgument host callee paren before after k m) := by
  cases after with
  | cons e after => exact .eval (.part .refl rfl rfl)
  | nil =>
    show t.Goes host (.expr k) m (call host callee paren before.reverse k m)
    obtain hhands | ⟨id, closure, -, hroom, henter⟩ | ⟨id, cls, -, hroom, hmake⟩ :=
      call_cases host k m callee paren before.reverse
    · exact hhands.goes hfaults False.elim
    · rw [henter]
      exact .flow (.part (.call (.alter .refl rfl) hroom) rfl rfl)
    · rw [hmake]
      unfold instantiate
      simp only
      split
      · exact .value (.alter .refl rfl)
      · exact .flow (.part (.call (.part (.alter .refl rfl) rfl rfl) hroom) rfl rfl)

/-- How the evaluation of each expression starts. -/
theorem goes_eval (e : Expr) (k : ExprCont) (m : Machine) :
    (State.eval e k m).Goes host (.expr k) m (Step.eval e k m) := by
  cases e with
  | «variable» id name =>
    exact (hands_readVariable id name).goes (fun _ h => h ▸ .read) fun _ => .read
  | thisRef id keyword =>
    exact (hands_readVariable id keyword).goes (fun _ h => h ▸ .this) fun _ => .this
  | literal => exact .value .refl
  | function => exact .value (.alter .refl rfl)
  | group => exact .eval .refl
  | assign | unary | binary | logical | conditional | call | get | set =>
    exact .eval (.part .refl rfl rfl)

/-- How the execution of each statement starts. -/
theorem goes_exec (s : Stmt) (k : StmtCont) (m : Machine) :
    (State.exec s k m).Goes host (.stmt k) m (Step.exec s k m) := by
  have hnumbered : m.Alters { m with nextId := m.nextId + 1 } := rfl
  cases s with
  | varDecl name e =>
    cases e with
    | none => exact .flow (.alter .refl (.define m _ _))
    | some e => exact .eval (.part .refl rfl rfl)
  | block body => exact .flow (.part (.block (.alter .refl rfl)) rfl rfl)
  | funDecl => exact .flow (.alter (.alter .refl hnumbered) (.define _ _ _))
  | classDecl =>
    rw [Step.exec_classDecl]
    exact .flow (.alter (.alter (.alter .refl hnumbered) (.define _ _ _)) (.define _ _ _))
  | ret keyword e =>
    cases e with
    | none => exact .flow .refl
    | some e => exact .eval (.part .refl rfl rfl)
  | expr | print | ifElse | whileLoop => exact .eval (.part .refl rfl rfl)

/-- What each continuation does with a value. -/
theorem goes_resumeValue (v : Value) {k : ExprCont} (m : Machine) {c : Cont}
    (hrest : (Cont.expr k).rest? = some c) :
    (State.value v k m).Goes host c m (resumeValue host v k m) := by
  cases k <;> cases hrest
  case assign.refl id name k =>
    exact (hands_writeVariable id name v).goes (fun _ h => h ▸ .assign) fun _ => .assign
  case unary.refl op k =>
    exact (hands_operatorResult op _).goes (fun _ => .unary) False.elim
  case right.refl first op k =>
    exact (hands_operatorResult op _).goes (fun _ => .binary) False.elim
  case logical.refl op right k =>
    show State.Goes host _ _ _ (if v.settles op then State.value v k m else .eval right k m)
    split
    · exact .value .refl
    · exact .eval .refl
  case callee.refl paren arguments k =>
    exact goes_nextArgument k v paren [] arguments fun _ => .callee
  case argument.refl callee paren before after k =>
    exact goes_nextArgument k callee paren _ after fun _ => .argument
  case property.refl name k =>
    exact (hands_readProperty v name).goes (fun _ => .property) False.elim
  case fieldOwner.refl name value k =>
    cases v with
    | object id cls => exact .eval (.part .refl rfl rfl)
    | _ => exact .failed .owner
  case print.refl k =>
    unfold resumeValue
    simp only
    split
    · exact .wrote rfl
    · exact .full
  case branch.refl whenTrue whenFalse k =>
    unfold resumeValue
    simp only
    split
    · exact .exec .refl
    · cases whenFalse with
      | none => exact .flow .refl
      | some s => exact .exec .refl
  case test.refl condition body k =>
    show State.Goes host _ _ _
      (if v.isTruthy then State.exec body (.again condition body k) m else .flow .normal k m)
    split
    · exact .exec (.part .refl rfl rfl)
    · exact .flow .refl
  case left.refl =>
    exact .eval (.part .refl rfl rfl)
  case choose.refl =>
    exact .eval .refl
  case construct.refl =>
    exact .value .refl
  case fieldValue.refl =>
    exact .value (.alter .refl rfl)
  case define.refl =>
    exact .flow (.alter .refl (.define m _ _))
  case discard.refl | ret.refl =>
    exact .flow .refl

/-- What each continuation does behind a statement. -/
theorem goes_resumeFlow (f : Flow) {k : StmtCont} (m : Machine) {c : Cont}
    (hrest : (Cont.stmt k).rest? = some c) :
    (State.flow f k m).Goes host c ((Cont.stmt k).leave m) (resumeFlow f k m) := by
  cases k <;> cases hrest
  case sequence.refl rest k =>
    cases f with
    | returned v => exact .flow .refl
    | normal =>
      cases rest with
      | nil => exact .flow .refl
      | cons s rest => exact .exec (.part .refl rfl rfl)
  case leaveBlock.refl env k =>
    exact .flow .refl
  case again.refl condition body k =>
    cases f with
    | normal => exact .eval (.part .refl rfl rfl)
    | returned v => exact .flow .refl
  case leaveCall.refl env callee k =>
    exact (hands_callResult callee f ⟨.eof, "", 0⟩).goes (fun _ => False.elim) fun _ => .result

end Step

/-- What is left of the continuation and of the machine once the innermost part is taken away. An
    expression or a statement at hand leaves everything. -/
inductive State.Drops : State → Cont → Machine → Prop
  | eval {e k m} : Drops (.eval e k m) (.expr k) m
  | exec {s k m} : Drops (.exec s k m) (.stmt k) m
  | value {v k m c} (h : (Cont.expr k).rest? = some c) : Drops (.value v k m) c m
  | flow {f k m c} (h : (Cont.stmt k).rest? = some c) :
      Drops (.flow f k m) c ((Cont.stmt k).leave m)

/-- **What a step does.** -/
theorem State.Drops.goes {c : Cont} (h : t.Drops c m) (host : Host) :
    t.Goes host c m (step host t) := by
  cases h with
  | eval => exact Step.goes_eval _ _ _
  | exec => exact Step.goes_exec _ _ _
  | value hrest => exact Step.goes_resumeValue _ _ hrest
  | flow hrest => exact Step.goes_resumeFlow _ _ hrest

/-- A step is of this kind, unless the run is over. -/
theorem State.step_cases (host : Host) (t : State) :
    t.isFinal = true ∧ step host t = t ∨
      ∃ c m, t.Drops c m ∧ t.Goes host c m (step host t) := by
  have goes {c : Cont} {m : Machine} (h : t.Drops c m) : ∃ c m, t.Drops c m ∧
      t.Goes host c m (step host t) := ⟨c, m, h, h.goes host⟩
  cases t with
  | eval => exact .inr (goes .eval)
  | exec => exact .inr (goes .exec)
  | value v k m =>
    cases k with
    | done => exact .inl ⟨rfl, rfl⟩
    | _ => exact .inr (goes (.value rfl))
  | flow f k m =>
    cases k with
    | done => exact .inl ⟨rfl, rfl⟩
    | _ => exact .inr (goes (.flow rfl))
  | failed | desync => exact .inl ⟨rfl, rfl⟩

/-- A runtime error has a cause. -/
theorem State.faults_of_step {token : Token} {fault : RuntimeFault} (hlive : t.isFinal = false)
    (hstep : step host t = .failed (.runtime token fault) m) : t.Faults token fault := by
  obtain ⟨hfinal, -⟩ | ⟨c, m', -, hgoes⟩ := t.step_cases host
  · exact absurd (hlive.symm.trans hfinal) Bool.false_ne_true
  · generalize step host t = t' at hgoes hstep
    cases hgoes with
    | failed hfaults =>
      cases hstep
      exact hfaults
    | _ => cases hstep

end Goes

end Scriptlet

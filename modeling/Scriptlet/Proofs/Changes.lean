import Scriptlet.Proofs.Restoration

namespace Scriptlet

/-!
# Changes to the store

All that a step does to the store, change by change.

* `Change` — a frame or an object is made, a variable is bound, a variable that is there is
  assigned to, or a field is set.
* `State.changes` — the changes that the next step makes, in this order.
* `State.store_step` — the store behind the step is the one in front of it, so changed.
-/

/-- One change to a store. -/
inductive Change where
  | newFrame
  /-- A variable is bound in a frame, in place of any earlier binding there. -/
  | define (f : FrameId) (x : String) (v : Value)
  /-- A variable that the frame holds gets another value. -/
  | assign (f : FrameId) (x : String) (v : Value)
  | newObject
  | setField (id : ObjectId) (x : String) (v : Value)

namespace Store

/-- The store behind a change. -/
def change (s : Store) : Change → Store
  | .newFrame => s.newFrame.2
  | .define f x v => s.define f x v
  | .assign f x v => s.assign f x v
  | .newObject => s.newObject.2
  | .setField id x v => s.setField id x v

/-- The store behind some changes. -/
def changeAll (s : Store) (changes : List Change) : Store := changes.foldl change s

/-- Variables are bound in one frame, one after the other. -/
theorem changeAll_defines (s : Store) (f : FrameId) (vars : List (String × Value)) :
    s.changeAll (vars.map fun p => .define f p.1 p.2) = s.defineAll f vars := by
  induction vars generalizing s with
  | nil => rfl
  | cons p vars ih => exact ih _

/-- No change takes frames away. -/
theorem size_le_changeAll (s : Store) (changes : List Change) :
    s.frames.size ≤ (s.changeAll changes).frames.size := by
  induction changes generalizing s with
  | nil => exact Nat.le_refl _
  | cons c changes ih =>
    refine Nat.le_trans ?_ (ih (s.change c))
    cases c with
    | newFrame => exact (Nat.le_succ _).trans_eq (size_newFrame s).symm
    | define f x v => exact Nat.le_of_eq (size_define s f x v).symm
    | assign f x v => exact Nat.le_of_eq (size_assign s f x v).symm
    | newObject | setField => exact Nat.le_refl _

end Store

/-- The innermost frame of the environment gets a variable. -/
def Machine.defineChanges (m : Machine) (x : String) (v : Value) : List Change :=
  match m.env with
  | [] => []
  | f :: _ => [.define f x v]

/-- The innermost frame gets a variable for a class. It stands for `nil` at first, and is then
    assigned to. -/
def Machine.classChanges (m : Machine) (x : String) (v : Value) : List Change :=
  match m.env with
  | [] => []
  | f :: _ => [.define f x .nil, .assign f x v]

/-- The changes of a class declaration. -/
theorem Machine.store_assign_define (m : Machine) (x : String) (v : Value) :
    ((m.define x .nil).assign x v).store = m.store.changeAll (m.classChanges x v) := by
  obtain ⟨store, env, depths, sink, callDepth, natives, nextId, ticks⟩ := m
  cases env <;> rfl

/-- The change of a declaration. -/
theorem Machine.store_define (m : Machine) (x : String) (v : Value) :
    (m.define x v).store = m.store.changeAll (m.defineChanges x v) := by
  unfold Machine.define Machine.defineChanges
  cases m.env <;> rfl

namespace Step

/-- A variable is assigned to, if it is found. -/
def assignChanges (id : NodeId) (name : Token) (v : Value) (m : Machine) : List Change :=
  let holder? :=
    match m.depths[id]? with
    | some depth => m.store.holderAt? m.env depth name.lexeme
    | none => m.store.holder? Machine.globals name.lexeme
  holder?.toList.map fun f => .assign f name.lexeme v

/-- A function is entered: `f` is the new frame, and the parameters are bound in it. -/
def enterChanges (callee : Closure) (arguments : List Value) (f : FrameId) : List Change :=
  .newFrame ::
    ((callee.decl.params.map (·.lexeme)).zip arguments).map fun p => .define f p.1 p.2

/-- A property is read: a method that is found in place of a field is bound to the object. -/
def propertyChanges (object : Value) (name : Token) (m : Machine) : List Change :=
  match object with
  | .object id cls =>
    match (m.store.fields id)[name.lexeme]? with
    | some _ => []
    | none =>
      match cls.method? name.lexeme with
      | some _ => [.newFrame, .define m.store.frames.size "this" object]
      | none => []
  | _ => []

/-- An object is made, and the initializer of its class is bound to it and entered. -/
def instantiateChanges (cls : Class) (arguments : List Value) (m : Machine) : List Change :=
  .newObject ::
    match cls.initializer? with
    | none => []
    | some initializer =>
      .newFrame :: .define m.store.frames.size "this" (.object m.store.objects.size cls) ::
        enterChanges initializer arguments (m.store.frames.size + 1)

/-- A value is called. -/
def callChanges (host : Host) (callee : Value) (arguments : List Value) (m : Machine) :
    List Change :=
  match callee with
  | .function _ closure =>
    match refusal? host m closure.arity arguments.length with
    | some _ => []
    | none => enterChanges closure arguments m.store.frames.size
  | .classObj _ cls =>
    match refusal? host m cls.arity arguments.length with
    | some _ => []
    | none => instantiateChanges cls arguments m
  | _ => []

end Step

/-- The changes that the next step makes, in this order. -/
def State.changes (host : Host) : State → List Change
  | .exec (.varDecl name none) _ m => m.defineChanges name.lexeme .nil
  | .exec (.funDecl decl) _ m =>
    m.defineChanges decl.label (.function m.nextId ⟨decl, m.env, false⟩)
  | .exec (.classDecl name methods) _ m =>
    m.classChanges name.lexeme (.classObj m.nextId ⟨name.lexeme, methods, m.env⟩)
  | .exec (.block _) _ _ => [.newFrame]
  | .value v (.define name _) m => m.defineChanges name.lexeme v
  | .value v (.assign id name _) m => Step.assignChanges id name v m
  | .value v (.callee _ [] _) m => Step.callChanges host v [] m
  | .value v (.argument callee _ before [] _) m =>
    Step.callChanges host callee (v :: before).reverse m
  | .value v (.property name _) m => Step.propertyChanges v name m
  | .value v (.fieldValue object name _) _ => [.setField object name.lexeme v]
  | _ => []

/-! ### The store behind a step -/

namespace Step

variable {host : Host} {m : Machine} {k : ExprCont}

/-- An error leaves the store. -/
theorem store_fail (e : Error) : (fail e k m).machine.store = m.store := by
  unfold fail
  rw [k.unwind_eq_left]
  rfl

/-- Operators leave the store. -/
theorem store_operatorResult (op : Token) (r : Except RuntimeFault Value) :
    (operatorResult op r k m).machine.store = m.store := by
  cases r with
  | ok v => rfl
  | error fault => exact store_fail _

/-- Reading a variable leaves the store. -/
theorem store_readVariable (id : NodeId) (name : Token) :
    (readVariable id name k m).machine.store = m.store := by
  unfold readVariable
  split
  · split <;> rfl
  · split
    · rfl
    · exact store_fail _

/-- The change of an assignment. -/
theorem store_writeVariable (id : NodeId) (name : Token) (v : Value) :
    (writeVariable id name v k m).machine.store =
      m.store.changeAll (assignChanges id name v m) := by
  unfold writeVariable assignChanges
  cases m.depths[id]? with
  | some depth =>
    simp only
    cases m.store.holderAt? m.env depth name.lexeme <;> rfl
  | none =>
    simp only
    cases m.store.holder? Machine.globals name.lexeme with
    | some f => rfl
    | none => exact store_fail _

/-- The changes of reading a property. -/
theorem store_readProperty (object : Value) (name : Token) :
    (readProperty object name k m).machine.store =
      m.store.changeAll (propertyChanges object name m) := by
  cases object with
  | object id cls =>
    unfold readProperty propertyChanges
    simp only
    cases (m.store.fields id)[name.lexeme]? with
    | some v => rfl
    | none =>
      simp only
      cases cls.method? name.lexeme with
      | some method => rfl
      | none => exact store_fail _
  | _ => exact store_fail _

/-- The changes of entering a function. -/
theorem store_enter (callee : Closure) (arguments : List Value) :
    (enter callee arguments k m).machine.store =
      m.store.changeAll (enterChanges callee arguments m.store.frames.size) :=
  (Store.changeAll_defines m.store.newFrame.2 _ _).symm

/-- The changes of making an object. -/
theorem store_instantiate (cls : Class) (arguments : List Value) :
    (instantiate cls arguments k m).machine.store =
      m.store.changeAll (instantiateChanges cls arguments m) := by
  unfold instantiate instantiateChanges
  simp only
  cases cls.initializer? with
  | none => rfl
  | some initializer =>
    simp only
    rw [store_enter, Machine.size_bindMethod]
    rfl

/-- The changes of a call. Functions of the host change nothing. -/
theorem store_call (callee : Value) (paren : Token) (arguments : List Value) :
    (call host callee paren arguments k m).machine.store =
      m.store.changeAll (callChanges host callee arguments m) := by
  cases callee with
  | native index =>
    unfold call callNative
    simp only
    split
    · split
      · exact store_fail _
      · split
        · rfl
        · split
          · rfl
          · exact store_fail _
    · exact store_fail _
  | function id closure =>
    unfold call callChanges
    simp only
    cases refusal? host m closure.arity arguments.length with
    | some fault => exact store_fail _
    | none => exact store_enter closure arguments
  | classObj id cls =>
    unfold call callChanges
    simp only
    cases refusal? host m cls.arity arguments.length with
    | some fault => exact store_fail _
    | none => exact store_instantiate cls arguments
  | nil | bool | number | string | object => exact store_fail _

end Step

/-- **What a step does to the store.** -/
theorem State.store_step (host : Host) (t : State) :
    (step host t).machine.store = t.machine.store.changeAll (t.changes host) := by
  cases t with
  | eval e k m =>
    cases e with
    | «variable» id name => exact Step.store_readVariable id name
    | thisRef id keyword => exact Step.store_readVariable id keyword
    | _ => rfl
  | exec s k m =>
    cases s with
    | varDecl name e =>
      cases e with
      | none => exact m.store_define _ _
      | some e => rfl
    | funDecl => exact Machine.store_define { m with nextId := m.nextId + 1 } _ _
    | classDecl => exact Machine.store_assign_define { m with nextId := m.nextId + 1 } _ _
    | ret keyword e => cases e <;> rfl
    | expr | print | block | ifElse | whileLoop => rfl
  | value v k m =>
    cases k with
    | assign id name k => exact Step.store_writeVariable id name v
    | unary op k | right first op k => exact Step.store_operatorResult op _
    | logical op right k =>
      show (State.machine (if v.settles op then .value v k m else .eval right k m)).store = m.store
      split <;> rfl
    | callee paren arguments k =>
      cases arguments with
      | nil => exact Step.store_call v paren []
      | cons e rest => rfl
    | argument callee paren before after k =>
      cases after with
      | nil => exact Step.store_call callee paren _
      | cons e rest => rfl
    | property name k => exact Step.store_readProperty v name
    | fieldOwner name value k =>
      cases v with
      | object id cls => rfl
      | nil | bool | number | string | native | function | classObj => exact Step.store_fail _
    | print k =>
      show (Step.resumeValue host v (.print k) m).machine.store = m.store
      unfold Step.resumeValue
      simp only
      split
      · rfl
      · rw [k.unwind_eq_left]
        rfl
    | define name k => exact m.store_define _ _
    | branch whenTrue whenFalse k =>
      show (State.machine (if v.isTruthy then .exec whenTrue k m else _)).store = m.store
      split
      · rfl
      · cases whenFalse <;> rfl
    | test condition body k =>
      show (State.machine (if v.isTruthy then .exec body (.again condition body k) m
        else .flow .normal k m)).store = m.store
      split <;> rfl
    | done | left | choose | fieldValue | construct | discard | ret => rfl
  | flow f k m =>
    cases k with
    | sequence rest k =>
      cases f with
      | returned v => rfl
      | normal => cases rest <;> rfl
    | again condition body k => cases f <;> rfl
    | leaveCall env callee k =>
      show (Step.callResult callee f k
        { m with env, callDepth := m.callDepth - 1 }).machine.store = _
      unfold Step.callResult
      split
      · split <;> rfl
      · cases f <;> rfl
    | done | leaveBlock => rfl
  | failed | desync => rfl

/-- The frames of a run stay in use. -/
theorem State.size_le_steps (host : Host) (t : State) (n : Nat) :
    t.machine.store.frames.size ≤ ((step host)^[n] t).machine.store.frames.size := by
  induction n with
  | zero => exact Nat.le_refl _
  | succ n ih =>
    rw [Function.iterate_succ_apply', State.store_step]
    exact ih.trans (Store.size_le_changeAll _ _)

end Scriptlet

import Scriptlet.Proofs.CallLimit

namespace Scriptlet

/-!
# A sink with little room

The same source is run twice, once on a sink that takes everything and once on a sink that takes
some bytes and then fails. The second run is the first one, cut off at the first byte for which
there is no room.

* `Machine.onto`, `State.onto`, `Session.onto` — the same, writing to another sink.
* `step_onto` — only a step that prints looks at the sink.
* `Sink.cutAt limit` — what a sink with room for `limit` bytes would have taken.
* `State.Cuts limit t t'` — with room for `limit` bytes, `t'` stands for `t`: the run goes on as
  `t` does, or it was ended by the byte that did not fit. Steps keep it (`State.Cuts.step`).
* `Session.little_room_only_cuts` — so it is for sources.
-/

/-! ### Other sinks -/

/-- The same machine, writing to another sink. -/
def Machine.onto (m : Machine) (sink : Sink) : Machine := { m with sink }

namespace State

/-- The same state, writing to another sink. -/
def onto (sink : Sink) : State → State
  | .eval e k m => .eval e k (m.onto sink)
  | .exec s k m => .exec s k (m.onto sink)
  | .value v k m => .value v k (m.onto sink)
  | .flow f k m => .flow f k (m.onto sink)
  | .failed e m => .failed e (m.onto sink)
  | .desync d m => .desync d (m.onto sink)

/-- The text that the next step prints. -/
def output? : State → Option String
  | .value v (.print _) _ => some (v.display ++ "\n")
  | _ => none

/-- A run is over wherever it writes to. -/
@[simp]
theorem isFinal_onto (sink : Sink) (t : State) : (t.onto sink).isFinal = t.isFinal := by
  cases t with
  | value v k m => cases k <;> rfl
  | flow f k m => cases k <;> rfl
  | eval | exec | failed | desync => rfl

/-- Wherever a run writes to, `State.ending?` is the same up to the sink of the last machine. -/
theorem ending?_onto (sink : Sink) (t : State) :
    (t.onto sink).ending? = t.ending?.map fun p => (p.1, p.2.onto sink) := by
  cases t <;> rfl

end State

/-- `Machine.begin` does not look at the sink. -/
theorem Machine.begin_onto (m : Machine) (sink : Sink) (s : Stmt) :
    (m.onto sink).begin false s = (m.begin false s).onto sink := by
  rw [Machine.begin_false, Machine.begin_false]
  rfl

/-- An error puts the environment back and leaves the sink alone. -/
theorem ExprCont.unwind_onto (k : ExprCont) (m : Machine) (sink : Sink) :
    k.unwind (m.onto sink) = (k.unwind m).onto sink := by
  rw [k.unwind_eq_left, k.unwind_eq_left]
  rfl

/-- Definitions go to the store. -/
theorem Machine.define_onto (m : Machine) (sink : Sink) (x : String) (v : Value) :
    (m.onto sink).define x v = (m.define x v).onto sink := by
  obtain ⟨store, env, depths, sink', callDepth, natives, nextId, ticks⟩ := m
  cases env <;> rfl

namespace Step

variable (host : Host) (sink : Sink) (k : ExprCont) (m : Machine)

/-- A fault does not look at the sink. Nor do the functions behind it, which end in faults. -/
theorem faultAt_onto (token : Token) (fault : RuntimeFault) :
    faultAt token fault k (m.onto sink) = (faultAt token fault k m).onto sink :=
  congrArg (State.failed _) (k.unwind_onto m sink)

/-- The outcome of an operator does not look at the sink. -/
theorem operatorResult_onto (op : Token) (r : Except RuntimeFault Value) :
    operatorResult op r k (m.onto sink) = (operatorResult op r k m).onto sink := by
  cases r with
  | ok v => rfl
  | error fault => exact faultAt_onto sink k m op fault

/-- Reading a variable looks at the store. -/
theorem readVariable_onto (id : NodeId) (name : Token) :
    readVariable id name k (m.onto sink) = (readVariable id name k m).onto sink := by
  unfold readVariable
  simp only [Machine.onto]
  split
  · split <;> rfl
  · split
    · rfl
    · exact faultAt_onto sink k m name _

/-- Writing a variable changes the store. -/
theorem writeVariable_onto (id : NodeId) (name : Token) (v : Value) :
    writeVariable id name v k (m.onto sink) = (writeVariable id name v k m).onto sink := by
  unfold writeVariable
  simp only [Machine.onto]
  split
  · split <;> rfl
  · split
    · rfl
    · exact faultAt_onto sink k m name _

/-- Fields and methods are in the store and in the class. -/
theorem readProperty_onto (object : Value) (name : Token) :
    readProperty object name k (m.onto sink) = (readProperty object name k m).onto sink := by
  unfold readProperty
  simp only [Machine.onto]
  split
  · split
    · rfl
    · split
      · rfl
      · exact faultAt_onto sink k m name _
  · exact faultAt_onto sink k m name _

/-- A new object goes to the store. -/
theorem instantiate_onto (cls : Class) (arguments : List Value) :
    instantiate cls arguments k (m.onto sink) = (instantiate cls arguments k m).onto sink := by
  simp only [instantiate]
  cases cls.initializer? <;> rfl

/-- No native function prints. -/
theorem callNative_onto (native : Native) (paren : Token) (arguments : List Value) :
    callNative host native paren arguments k (m.onto sink) =
      (callNative host native paren arguments k m).onto sink := by
  unfold callNative
  split
  · rfl
  · split
    · rfl
    · exact faultAt_onto sink k m paren _

/-- A call that is refused is a fault, and one that is not starts a body. -/
theorem call_onto (callee : Value) (paren : Token) (arguments : List Value) :
    call host callee paren arguments k (m.onto sink) =
      (call host callee paren arguments k m).onto sink := by
  have hrefusal (arity count : Nat) :
      refusal? host (m.onto sink) arity count = refusal? host m arity count := rfl
  cases callee with
  | native index =>
    have hnatives : (m.onto sink).natives = m.natives := rfl
    simp only [call, hnatives]
    split
    · split
      · exact faultAt_onto sink k m paren _
      · exact callNative_onto host sink k m _ paren arguments
    · exact faultAt_onto sink k m paren _
  | function id closure =>
    simp only [call, hrefusal]
    split
    · exact faultAt_onto sink k m paren _
    · rfl
  | classObj id cls =>
    simp only [call, hrefusal]
    split
    · exact faultAt_onto sink k m paren _
    · exact instantiate_onto sink k m cls arguments
  | nil | bool | number | string | object => exact faultAt_onto sink k m paren _

/-- The last argument starts the call. -/
theorem nextArgument_onto (callee : Value) (paren : Token) (before : List Value)
    (after : List Expr) :
    nextArgument host callee paren before after k (m.onto sink) =
      (nextArgument host callee paren before after k m).onto sink := by
  cases after with
  | nil => exact call_onto host sink k m callee paren _
  | cons e after => rfl

/-- An expression prints nothing by itself. -/
theorem eval_onto (e : Expr) : Step.eval e k (m.onto sink) = (Step.eval e k m).onto sink := by
  cases e with
  | «variable» id name => exact readVariable_onto sink k m id name
  | thisRef id keyword => exact readVariable_onto sink k m id keyword
  | literal | group | assign | unary | binary | logical | conditional | call | get | set
  | function => rfl

/-- A statement prints nothing before its operand has a value. -/
theorem exec_onto (s : Stmt) (k : StmtCont) :
    Step.exec s k (m.onto sink) = (Step.exec s k m).onto sink := by
  cases s with
  | varDecl name e =>
    cases e with
    | none => exact congrArg (State.flow .normal k) (m.define_onto sink name.lexeme .nil)
    | some e => rfl
  | funDecl decl =>
    exact congrArg (State.flow .normal k)
      (Machine.define_onto { m with nextId := m.nextId + 1 } sink decl.label _)
  | classDecl name methods =>
    rw [Step.exec_classDecl, Step.exec_classDecl]
    refine congrArg (State.flow .normal k) ?_
    rw [← Machine.define_onto, ← Machine.define_onto]
    rfl
  | ret keyword e => cases e <;> rfl
  | expr | print | block | ifElse | whileLoop => rfl

/-- With a value, only the continuation `print` looks at the sink. -/
theorem resumeValue_onto (v : Value) (hk : (State.value v k m).output? = none) :
    resumeValue host v k (m.onto sink) = (resumeValue host v k m).onto sink := by
  cases k with
  | print => cases hk
  | assign id name k => exact writeVariable_onto sink k m id name v
  | unary op k => exact operatorResult_onto sink k m op _
  | right first op k => exact operatorResult_onto sink k m op _
  | logical op right k =>
    simp only [resumeValue]
    split <;> rfl
  | callee paren arguments k => exact nextArgument_onto host sink k m v paren [] arguments
  | argument callee paren before after k =>
    exact nextArgument_onto host sink k m callee paren (v :: before) after
  | property name k => exact readProperty_onto sink k m v name
  | fieldOwner name value k =>
    cases v with
    | object id cls => rfl
    | nil | bool | number | string | native | function | classObj =>
      exact faultAt_onto sink k m name _
  | define name k => exact congrArg (State.flow .normal k) (m.define_onto sink name.lexeme v)
  | branch whenTrue whenFalse k =>
    simp only [resumeValue]
    split
    · rfl
    · cases whenFalse <;> rfl
  | test condition body k =>
    simp only [resumeValue]
    split <;> rfl
  | done | left | choose | fieldValue | construct | discard | ret => rfl

/-- Behind a statement nothing is printed. -/
theorem resumeFlow_onto (f : Flow) (k : StmtCont) :
    resumeFlow f k (m.onto sink) = (resumeFlow f k m).onto sink := by
  cases k with
  | sequence rest k => cases f <;> cases rest <;> rfl
  | again condition body k => cases f <;> rfl
  | leaveCall env callee k =>
    have hstore : (m.onto sink).store = m.store := rfl
    simp only [resumeFlow, callResult, hstore]
    split
    · cases m.store.lookupAt? callee.env 0 "this" <;> rfl
    · cases f <;> rfl
  | done | leaveBlock => rfl

end Step

/-- **Only a step that prints looks at the sink.** -/
theorem step_onto (host : Host) (sink : Sink) {t : State} (ht : t.output? = none) :
    step host (t.onto sink) = (step host t).onto sink := by
  cases t with
  | eval e k m => exact Step.eval_onto sink k m e
  | exec s k m => exact Step.exec_onto sink m s k
  | value v k m => exact Step.resumeValue_onto host sink k m v ht
  | flow f k m => exact Step.resumeFlow_onto sink m f k
  | failed | desync => rfl

/-! ### What is written to a sink that takes everything -/

/-- The same sink with more bytes written to it. -/
def Sink.Extends (s s' : Sink) : Prop := ∃ more, s' = { s with written := s.written ++ more }

namespace Sink.Extends

variable {s s' s'' : Sink}

/-- Nothing is written. -/
theorem refl (s : Sink) : s.Extends s := ⟨ByteArray.empty, by rw [ByteArray.append_empty]⟩

/-- More is written to what `Sink.Extends` has left. -/
theorem trans (h : s.Extends s') (h' : s'.Extends s'') : s.Extends s'' := by
  obtain ⟨more, rfl⟩ := h
  obtain ⟨more', rfl⟩ := h'
  exact ⟨more ++ more', by rw [ByteArray.append_assoc]⟩

/-- A sink that takes everything goes on to, however much is written. -/
theorem room_eq (h : s.Extends s') : s'.room = s.room := by
  obtain ⟨more, rfl⟩ := h
  rfl

/-- Whether `Machine.flush` fails was known from the start. -/
theorem flushFails_eq (h : s.Extends s') : s'.flushFails = s.flushFails := by
  obtain ⟨more, rfl⟩ := h
  rfl

/-- Nothing that was written is taken back. -/
theorem size_le (h : s.Extends s') : s.written.size ≤ s'.written.size := by
  obtain ⟨more, rfl⟩ := h
  rw [ByteArray.size_append]
  exact Nat.le_add_right _ _

end Sink.Extends

/-- `Sink.write` puts the text behind what is there, if there is room for everything. -/
theorem Sink.extends_write {s : Sink} (hs : s.room = none) (text : String) :
    s.Extends (s.write text).2 := by
  refine ⟨text.toUTF8, ?_⟩
  unfold Sink.write
  simp only [hs]

section Extends

variable {host : Host} {fuel : Nat} {m m' : Machine} {ss : List Stmt} {t : State}

/-- One step writes at most one text, by `State.quiet_step`. -/
theorem State.extends_step (host : Host) (ht : t.machine.sink.room = none) :
    t.machine.sink.Extends (step host t).machine.sink := by
  obtain hquiet | ⟨text, hquiet⟩ := t.quiet_step host
  · rw [hquiet.sink]
    exact .refl _
  · rw [hquiet.sink]
    exact Sink.extends_write ht text

/-- Several steps only write more. -/
theorem State.extends_steps (host : Host) (ht : t.machine.sink.room = none) (n : Nat) :
    t.machine.sink.Extends ((step host)^[n] t).machine.sink :=
  Function.Iterate.rec (fun t' : State => t.machine.sink.Extends t'.machine.sink) (.refl _)
    (fun _ h => h.trans (State.extends_step host (h.room_eq.trans ht))) n

/-- So do the steps of a statement, from the machine that it starts on. -/
theorem Machine.extends_begin (hm : m.sink.room = none) (s : Stmt) (n : Nat) :
    m.sink.Extends ((step host)^[n] (m.begin false s)).machine.sink := by
  have h := State.extends_steps host (t := m.begin false s)
    (by rw [Machine.machine_begin]; exact hm) n
  rwa [Machine.machine_begin] at h

/-- A statement that ends has only written more. -/
theorem Machine.extends_execute {s : Stmt} {o : Outcome Flow} (hm : m.sink.room = none)
    (h : m.execute host fuel s = some (o, m')) : m.sink.Extends m'.sink := by
  rw [(State.eq_of_ending? (Machine.ending_of_execute h).2).1]
  exact Machine.extends_begin hm s fuel

/-- At every moment of a program, it has only written more. -/
theorem Machine.Reaches.extends (h : m.Reaches host ss t) (hm : m.sink.room = none) :
    m.sink.Extends t.machine.sink := by
  induction ss generalizing m with
  | nil =>
    obtain ⟨_, _, hpasses⟩ := h
    cases hpasses
  | cons s ss ih =>
    obtain ⟨n, rfl⟩ | ⟨fuel, f, m', hexec, hrest⟩ := h.first_or_rest
    · exact Machine.extends_begin hm s n
    · have hfirst := Machine.extends_execute hm hexec
      exact hfirst.trans (ih hrest (hfirst.room_eq.trans hm))

/-- What a program has written in the end it has written at some moment, unless it wrote nothing. -/
theorem Machine.reaches_of_interpret {o : Outcome Unit}
    (h : m.interpret host fuel ss = some (o, m')) :
    m'.sink = m.sink ∨ ∃ t, m.Reaches host ss t ∧ t.machine.sink = m'.sink := by
  induction ss generalizing m with
  | nil =>
    cases h
    exact .inl rfl
  | cons s ss ih =>
    obtain ⟨o₁, m₁, hexec, hrest⟩ := Machine.first_of_interpret h
    have hlast : ∃ t, m.Reaches host (s :: ss) t ∧ t.machine.sink = m₁.sink :=
      ⟨_, .now s ss m fuel,
        congrArg Machine.sink (State.eq_of_ending? (Machine.ending_of_execute hexec).2).1.symm⟩
    right
    obtain ⟨⟨f, rfl⟩, h⟩ | ⟨-, hsink⟩ := hrest
    · obtain hsame | ⟨t, ht, hsink⟩ := ih h
      · exact hsame ▸ hlast
      · exact ⟨t, ht.later hexec, hsink⟩
    · exact hsink ▸ hlast

/-- A program that ends has only written more. -/
theorem Machine.extends_interpret {o : Outcome Unit} (hm : m.sink.room = none)
    (h : m.interpret host fuel ss = some (o, m')) : m.sink.Extends m'.sink := by
  obtain hsame | ⟨t, ht, hsink⟩ := Machine.reaches_of_interpret h
  · rw [hsame]
    exact .refl _
  · rw [← hsink]
    exact ht.extends hm

end Extends

/-! ### Sinks with little room -/

/-- What a sink with room for `limit` bytes would have taken of what was written. -/
def Sink.cutAt (limit : Nat) (s : Sink) : Sink :=
  { s with written := s.written.extract 0 limit, room := some (limit - s.written.size) }

/-- All of the bytes, cut at a length that they do not reach. -/
theorem extract_of_size_le {bytes : ByteArray} {n : Nat} (h : bytes.size ≤ n) :
    bytes.extract 0 n = bytes := by
  apply ByteArray.ext
  rw [ByteArray.data_extract]
  exact Array.extract_eq_self_of_le h

namespace Sink

variable {s s' : Sink} {limit : Nat}

/-- A sink with little room takes what the other one takes, as far as it fits. -/
theorem write_cutAt (hs : s.room = none) (hsize : s.written.size ≤ limit) (text : String) :
    (s.cutAt limit).write text =
      (decide ((s.write text).2.written.size ≤ limit), (s.write text).2.cutAt limit) := by
  have hcut : (s.written ++ text.toUTF8).extract 0 limit =
      s.written.extract 0 limit ++ text.toUTF8.extract 0 (limit - s.written.size) := by
    rw [ByteArray.extract_append, Nat.zero_sub]
  have hroom : limit - (s.written.size + text.toUTF8.size) =
      limit - s.written.size - text.toUTF8.size := Nat.sub_add_eq _ _ _
  unfold Sink.write cutAt
  simp only [hs, ByteArray.size_append, hcut, hroom]
  split
  · next hfits =>
    rw [extract_of_size_le hfits, decide_eq_true (by omega)]
  · next hlong =>
    rw [decide_eq_false (by omega), Nat.sub_eq_zero_of_le (Nat.le_of_not_le hlong)]

/-- Behind the limit, nothing more is taken. -/
theorem Extends.cutAt_eq (h : s.Extends s') (hover : limit ≤ s.written.size) :
    s'.cutAt limit = s.cutAt limit := by
  obtain ⟨more, rfl⟩ := h
  unfold cutAt
  simp only [ByteArray.extract_append, ByteArray.size_append]
  rw [Nat.sub_eq_zero_of_le hover, Nat.sub_eq_zero_of_le (Nat.le_add_right_of_le hover)]
  simp

end Sink

/-- The same machine, if there was room for `limit` bytes. -/
def Machine.cutAt (limit : Nat) (m : Machine) : Machine := m.onto (m.sink.cutAt limit)

/-! ### Runs with little room -/

/-- With room for `limit` bytes, the second state stands for the first one. -/
inductive State.Cuts (limit : Nat) (t : State) : State → Prop
  /-- All that was written did fit. -/
  | inStep (hfits : t.machine.sink.written.size ≤ limit) :
      Cuts limit t (t.onto (t.machine.sink.cutAt limit))
  /-- Something did not fit, which ended the run. -/
  | full {m : Machine} (hover : limit < t.machine.sink.written.size)
      (hsink : m.sink = t.machine.sink.cutAt limit) : Cuts limit t (.failed (.output .full) m)

namespace State.Cuts

variable {limit : Nat} {t t' : State} {host : Host}

/-- A step that prints. -/
theorem step_print {v : Value} {k : StmtCont} {m : Machine} (hm : m.sink.room = none)
    (hsize : m.sink.written.size ≤ limit) :
    (step host (.value v (.print k) m)).Cuts limit
      (step host (.value v (.print k) (m.cutAt limit))) := by
  -- Both runs are at the same statement, and only one of them may have to give up.
  have hfree : step host (.value v (.print k) m) =
      .flow .normal k (m.onto (m.sink.write (v.display ++ "\n")).2) := by
    simp only [step, Step.resumeValue, Sink.write, hm, if_true]
    rfl
  have htight : step host (.value v (.print k) (m.cutAt limit)) =
      if (m.sink.write (v.display ++ "\n")).2.written.size ≤ limit then
        .flow .normal k (m.onto ((m.sink.write (v.display ++ "\n")).2.cutAt limit))
      else
        .failed (.output .full)
          (k.unwind (m.onto ((m.sink.write (v.display ++ "\n")).2.cutAt limit))) := by
    have hwrite : (m.cutAt limit).sink.write (v.display ++ "\n") = _ :=
      Sink.write_cutAt hm hsize (v.display ++ "\n")
    simp only [step, Step.resumeValue, hwrite, decide_eq_true_eq]
    rfl
  rw [hfree, htight]
  split
  · next hfits => exact .inStep hfits
  · next hlong =>
    refine .full (Nat.lt_of_not_le hlong) ?_
    rw [k.unwind_eq_left]
    rfl

/-- **Steps with little room.** -/
theorem step (h : t.Cuts limit t') (ht : t.machine.sink.room = none) :
    (step host t).Cuts limit (Scriptlet.step host t') := by
  cases h with
  | full hover hsink =>
    have hmore := State.extends_step host ht
    exact .full (hover.trans_le hmore.size_le) (hsink.trans (hmore.cutAt_eq hover.le).symm)
  | inStep hfits =>
    cases hprints : t.output? with
    | none =>
      -- The sink is not looked at, so it is the same as before.
      have hsink : (Scriptlet.step host t).machine.sink = t.machine.sink := by
        have hself := step_onto host t.machine.sink hprints
        have honto (t : State) : t.onto t.machine.sink = t := by cases t <;> rfl
        have hmachine (t : State) (sink : Sink) : (t.onto sink).machine.sink = sink := by
          cases t <;> rfl
        rw [honto] at hself
        rw [hself, hmachine]
      rw [step_onto host _ hprints, ← hsink]
      rw [← hsink] at hfits
      exact .inStep hfits
    | some text =>
      obtain ⟨v, k, m, rfl⟩ : ∃ v k m, t = .value v (.print k) m := by
        unfold State.output? at hprints
        split at hprints
        · exact ⟨_, _, _, rfl⟩
        · cases hprints
      exact step_print ht hfits

/-- `State.Cuts.step`, several times. -/
theorem steps (h : t.Cuts limit t') (ht : t.machine.sink.room = none) (host : Host) (n : Nat) :
    ((Scriptlet.step host)^[n] t).Cuts limit ((Scriptlet.step host)^[n] t') := by
  induction n generalizing t t' with
  | zero => exact h
  | succ n ih =>
    rw [Function.iterate_succ_apply, Function.iterate_succ_apply]
    exact ih (h.step ht) ((State.extends_step host ht).room_eq.trans ht)

/-- The start of a statement. -/
theorem begin {m : Machine} (hsize : m.sink.written.size ≤ limit) (s : Stmt) :
    (m.begin false s).Cuts limit ((m.cutAt limit).begin false s) := by
  unfold Machine.cutAt
  rw [Machine.begin_onto]
  have hstart : (m.begin false s).machine.sink = m.sink := by rw [Machine.machine_begin]
  rw [← hstart] at hsize ⊢
  exact .inStep hsize

end State.Cuts

/-! ### Programs with little room -/

section Programs

variable {host : Host} {fuel limit : Nat} {m m₁ : Machine} {s : Stmt} {ss : List Stmt} {t : State}

/-- A statement that writes more than there is room for ends when the room does. -/
theorem Machine.execute_cutAt_over {n : Nat} (hm : m.sink.room = none)
    (hsize : m.sink.written.size ≤ limit)
    (hover : limit < ((step host)^[n] (m.begin false s)).machine.sink.written.size) :
    ∃ m', (m.cutAt limit).execute host n s = some (.failed (.output .full), m') ∧
      m'.sink = ((step host)^[n] (m.begin false s)).machine.sink.cutAt limit := by
  have hcuts := (State.Cuts.begin hsize s).steps (by rw [Machine.machine_begin]; exact hm) host n
  generalize hlast : (step host)^[n] ((m.cutAt limit).begin false s) = last at hcuts
  cases hcuts with
  | inStep hfits => exact absurd hover (Nat.not_lt_of_le hfits)
  | @full m' _ hsink =>
    refine ⟨m', ?_, hsink⟩
    rw [Machine.execute_of_isFinal (by rw [hlast]; rfl), hlast]
    rfl

/-- One that does not ends as it does with more room. -/
theorem Machine.execute_cutAt {o : Outcome Flow} (hm : m.sink.room = none)
    (h : m.execute host fuel s = some (o, m₁)) (hfits : m₁.sink.written.size ≤ limit) :
    (m.cutAt limit).execute host fuel s = some (o, m₁.cutAt limit) := by
  have hsize := (Machine.extends_execute hm h).size_le.trans hfits
  have hcuts := (State.Cuts.begin hsize s).steps (by rw [Machine.machine_begin]; exact hm) host fuel
  obtain ⟨hfinal, hend⟩ := Machine.ending_of_execute h
  obtain ⟨rfl, -⟩ := State.eq_of_ending? hend
  generalize hlast : (step host)^[fuel] ((m.cutAt limit).begin false s) = last at hcuts
  cases hcuts with
  | full hover => exact absurd hfits (Nat.not_le_of_lt hover)
  | inStep =>
    rw [Machine.execute_of_isFinal (by rw [hlast, State.isFinal_onto]; exact hfinal), hlast,
      State.ending?_onto, hend]
    rfl

/-- **Programs for which there is room** end as with more room. -/
theorem Machine.interpret_cutAt {o : Outcome Unit} (hm : m.sink.room = none)
    (h : m.interpret host fuel ss = some (o, m₁)) (hfits : m₁.sink.written.size ≤ limit) :
    (m.cutAt limit).interpret host fuel ss = some (o, m₁.cutAt limit) := by
  induction ss generalizing m with
  | nil =>
    cases h
    rfl
  | cons s ss ih =>
    unfold Machine.interpret at h ⊢
    split at h
    · cases h
    · next hexec =>
      have hroom := (Machine.extends_execute hm hexec).room_eq.trans hm
      -- What is behind the statement only writes more.
      have hfits' := (Machine.extends_interpret hroom h).size_le.trans hfits
      rw [Machine.execute_cutAt hm hexec hfits']
      exact ih hroom h
    · next hexec =>
      cases h
      rw [Machine.execute_cutAt hm hexec hfits]
      rfl
    · next hexec =>
      cases h
      rw [Machine.execute_cutAt hm hexec hfits]

/-- **Programs for which there is not enough room** end with the byte that does not fit. -/
theorem Machine.Reaches.interpret_cutAt (ht : m.Reaches host ss t) (hm : m.sink.room = none)
    (hflush : m.sink.flushFails = false) (hsize : m.sink.written.size ≤ limit)
    (hover : limit < t.machine.sink.written.size) :
    ∃ fuel m', (m.cutAt limit).interpret host fuel ss = some (.failed (.output .full), m') ∧
      m'.sink = t.machine.sink.cutAt limit := by
  induction ss generalizing m with
  | nil =>
    obtain ⟨_, _, hpasses⟩ := ht
    cases hpasses
  | cons s ss ih =>
    -- The statement that goes over the limit ends the program, and the flush succeeds.
    have hended {n : Nat}
        (hover : limit < ((step host)^[n] (m.begin false s)).machine.sink.written.size) :
        ∃ fuel m', (m.cutAt limit).interpret host fuel (s :: ss) =
            some (.failed (.output .full), m') ∧
          m'.sink = ((step host)^[n] (m.begin false s)).machine.sink.cutAt limit := by
      obtain ⟨m', hexec, hsink⟩ := Machine.execute_cutAt_over hm hsize hover
      have hnoFlush : m'.sink.flushFails = false := by
        rw [hsink]
        exact (Machine.extends_begin hm s n).flushFails_eq.trans hflush
      refine ⟨n, { m' with env := Machine.globals }, ?_, hsink⟩
      unfold Machine.interpret
      simp only [hexec, Machine.flush, hnoFlush, Bool.false_eq_true, if_false]
    obtain ⟨n, rfl⟩ | ⟨fuel, f, m', hexec, hrest⟩ := ht.first_or_rest
    · exact hended hover
    · have hfirst := Machine.extends_execute hm hexec
      have hroom := hfirst.room_eq.trans hm
      obtain hover' | hfits := Nat.lt_or_ge limit m'.sink.written.size
      · have hmachine := (State.eq_of_ending? (Machine.ending_of_execute hexec).2).1
        rw [hmachine] at hover' hrest
        rw [(hrest.extends (hmachine ▸ hroom)).cutAt_eq hover'.le]
        exact hended hover'
      · obtain ⟨fuel', m₂, hrun, hsink⟩ :=
          ih hrest hroom (hfirst.flushFails_eq.trans hflush) hfits
        refine ⟨max fuel fuel', m₂, ?_, hsink⟩
        unfold Machine.interpret
        rw [Machine.execute_of_le (Machine.execute_cutAt hm hexec hfits) (Nat.le_max_left _ _)]
        exact Machine.interpret_of_le hrun (Nat.le_max_right _ _)

end Programs

/-! ### Sources with little room -/

namespace Session

variable {host : Host} {fuel fuel' limit : Nat} {s s' : Session} {source : String} {v : Verdict}

/-- The same session, writing to another sink. -/
def onto (s : Session) (sink : Sink) : Session := { s with machine := s.machine.onto sink }

/-- The bytes that were written when the run of a source is at some moment, or at its end. -/
inductive Writes (host : Host) (source : String) (s : Session) : ByteArray → Prop
  | moment {job : Job} {t : State} (hjob : (Request.run source).job? s = some job)
      (ht : job.machine.Reaches host job.statements t) : Writes host source s t.machine.sink.written
  | last {fuel : Nat} {v : Verdict} {s' : Session}
      (hrun : s.run host fuel source = some (v, s')) :
      Writes host source s s'.machine.sink.written

/-- A source that is run is rejected, or its statements are. -/
theorem run_cases (h : s.run host fuel source = some (v, s')) :
    ((s.analyze source).1.report.hadError = true ∧ v = .rejected (s.analyze source).1.report ∧
        s' = (s.analyze source).2) ∨
      ∃ job o m, (Request.run source).job? s = some job ∧ v = .ran o ∧
        job.machine.interpret host fuel job.statements = some (o, m) ∧
        s' = { (s.analyze source).2 with machine := m } := by
  unfold Session.run at h
  simp only at h
  split at h
  · next herror =>
    cases h
    exact .inl ⟨herror, rfl, rfl⟩
  · next haccepted =>
    refine .inr ⟨⟨false, (s.analyze source).1.statements, (s.analyze source).2.machine⟩, ?_⟩
    unfold Session.interpret at h
    split at h
    · next o s₁ hrun =>
      split at hrun
      · next o m hends =>
        cases hrun
        cases h
        exact ⟨o, m, if_neg haccepted, rfl, hends, rfl⟩
      · cases hrun
    · cases h

/-- A source that is rejected runs nothing. -/
theorem run_of_hadError (h : (s.analyze source).1.report.hadError = true) :
    s.run host fuel source = some (.rejected (s.analyze source).1.report, (s.analyze source).2) :=
  if_pos h

/-- A source that is accepted runs as its job does. -/
theorem run_of_job {job : Job} (hjob : (Request.run source).job? s = some job) {o : Outcome Unit}
    {m : Machine} (hrun : job.machine.interpret host fuel job.statements = some (o, m)) :
    s.run host fuel source = some (.ran o, { (s.analyze source).2 with machine := m }) := by
  simp only [Request.job?] at hjob
  split at hjob
  · cases hjob
  · next haccepted =>
    cases hjob
    simp only [Session.run, Session.interpret, if_neg haccepted, hrun]

/-- A source has one end. -/
theorem run_unique {r r' : Verdict × Session} (h : s.run host fuel source = some r)
    (h' : s.run host fuel' source = some r') : r = r' := by
  obtain ⟨v, s₁⟩ := r
  obtain ⟨v', s₂⟩ := r'
  obtain ⟨herror, rfl, rfl⟩ | ⟨job, o, m, hjob, rfl, hrun, rfl⟩ := run_cases h
  · obtain ⟨-, rfl, rfl⟩ | ⟨job, -, -, hjob, -⟩ := run_cases h'
    · rfl
    · simp only [Request.job?, herror, if_true] at hjob
      cases hjob
  · obtain ⟨herror, -⟩ | ⟨job', o', m', hjob', rfl, hrun', rfl⟩ := run_cases h'
    · simp only [Request.job?, herror, if_true] at hjob
      cases hjob
    · cases hjob.symm.trans hjob'
      have hsame := (Machine.interpret_of_le hrun (Nat.le_max_left fuel fuel')).symm.trans
        (Machine.interpret_of_le hrun' (Nat.le_max_right fuel fuel'))
      cases hsame
      rfl

/-- The analysis of a source writes nothing. -/
theorem analyze_onto (s : Session) (sink : Sink) (source : String) :
    (s.onto sink).analyze source = ((s.analyze source).1, (s.analyze source).2.onto sink) := rfl

/-- The job of a source is the same, on a machine that writes to another sink. -/
theorem job?_onto (s : Session) (sink : Sink) (source : String) :
    (Request.run source).job? (s.onto sink) =
      ((Request.run source).job? s).map fun job =>
        { job with machine := job.machine.onto sink } := by
  show (if (s.analyze source).1.report.hadError then none else some _) = _
  simp only [Request.job?]
  split <;> rfl

/-! ### Sessions with little room -/

section

variable {written : ByteArray} {bytes : ByteArray} {n : Nat} {job : Job}

/-- A session on a sink with room for `n` bytes is the same on a sink with room up to a limit. -/
theorem job?_cutAt (n : Nat)
    (h : (Request.run source).job? (s.onto ⟨written, none, false⟩) = some job) :
    job.machine.sink = ⟨written, none, false⟩ ∧
      (Request.run source).job? (s.onto ⟨written, some n, false⟩) =
        some { job with machine := job.machine.cutAt (written.size + n) } := by
  have hcut : Sink.cutAt (written.size + n) ⟨written, none, false⟩ = ⟨written, some n, false⟩ := by
    unfold Sink.cutAt
    rw [extract_of_size_le (Nat.le_add_right _ _), Nat.add_sub_cancel_left]
  rw [job?_onto] at h
  obtain ⟨job₀, hjob₀, rfl⟩ := Option.map_eq_some_iff.1 h
  refine ⟨rfl, ?_⟩
  rw [job?_onto, hjob₀, Machine.cutAt]
  show _ = some { job₀ with
    machine := job₀.machine.onto (Sink.cutAt (written.size + n) ⟨written, none, false⟩) }
  rw [hcut]
  rfl

/-- A run that does not write more than there is room for. -/
theorem run_cutAt (hrun : (s.onto ⟨written, none, false⟩).run host fuel source = some (v, s'))
    (hfits : s'.machine.sink.written.size ≤ written.size + n) :
    (s.onto ⟨written, some n, false⟩).run host fuel source =
      some (v, s'.onto ⟨s'.machine.sink.written,
        some (written.size + n - s'.machine.sink.written.size), false⟩) := by
  obtain ⟨herror, rfl, rfl⟩ | ⟨job, o, m, hjob, rfl, hends, rfl⟩ := run_cases hrun
  · rw [run_of_hadError (s := s.onto ⟨written, some n, false⟩) herror, analyze_onto, analyze_onto]
    show _ = some (_, (s.analyze source).2.onto
      ⟨written, some (written.size + n - written.size), false⟩)
    rw [Nat.add_sub_cancel_left]
  · obtain ⟨hsink, hjob'⟩ := job?_cutAt n hjob
    have hmore := Machine.extends_interpret (by rw [hsink]) hends
    have hm : m.sink.cutAt (written.size + n) =
        ⟨m.sink.written, some (written.size + n - m.sink.written.size), false⟩ := by
      unfold Sink.cutAt
      rw [extract_of_size_le hfits, hmore.flushFails_eq, hsink]
    rw [run_of_job hjob' (Machine.interpret_cutAt (by rw [hsink]) hends hfits), Machine.cutAt, hm]
    rfl

/-- A run that writes more than there is room for. -/
theorem exists_run_of_reaches {t : State}
    (h : (Request.run source).job? (s.onto ⟨written, none, false⟩) = some job)
    (ht : job.machine.Reaches host job.statements t)
    (hsize : written.size + n < t.machine.sink.written.size) :
    ∃ s' fuel, (s.onto ⟨written, some n, false⟩).run host fuel source =
        some (.ran (.failed (.output .full)), s') ∧
      s'.machine.sink.written = t.machine.sink.written.extract 0 (written.size + n) := by
  obtain ⟨hsink, hjob⟩ := job?_cutAt n h
  obtain ⟨fuel, m, hrun, hm⟩ := ht.interpret_cutAt (by rw [hsink]) (by rw [hsink])
    (by rw [hsink]; exact Nat.le_add_right _ _) hsize
  exact ⟨_, fuel, run_of_job hjob hrun, congrArg Sink.written hm⟩

/-- What is there in the end was there at some moment, or from the start. -/
theorem Writes.exists_reaches (h : (s.onto ⟨written, none, false⟩).Writes host source bytes)
    (hsize : written.size < bytes.size) :
    ∃ job t, (Request.run source).job? (s.onto ⟨written, none, false⟩) = some job ∧
      job.machine.Reaches host job.statements t ∧ t.machine.sink.written = bytes := by
  cases h with
  | moment hjob ht => exact ⟨_, _, hjob, ht, rfl⟩
  | last hrun =>
    obtain ⟨-, -, rfl⟩ | ⟨job, o, m, hjob, rfl, hends, rfl⟩ := run_cases hrun
    · exact absurd hsize (Nat.lt_irrefl _)
    · obtain hsame | ⟨t, ht, hsink⟩ := Machine.reaches_of_interpret hends
      · have hstart : m.sink.written = written := by rw [hsame, (job?_cutAt 0 hjob).1]
        exact absurd (hstart ▸ hsize) (Nat.lt_irrefl _)
      · exact ⟨job, t, hjob, ht, congrArg Sink.written hsink⟩

end

end Session

/-- **A sink that fails cuts a run off, and does nothing else.** A source is run on a sink that
    takes everything, and in the same session on a sink that takes `n` bytes and then fails.

    * If the first run ends and has written at most `n` bytes, the second one ends in the same way,
      with the same output and in the same session, but for the room that is left.
    * If the first run, which need not end, has written more than `n` bytes at some moment, then the
      second one ends with the error of the sink, and its output is the first `n` bytes. -/
theorem Session.little_room_only_cuts (host : Host) (s : Session) (source : String)
    (written : ByteArray) (n : Nat) :
    let free := s.onto ⟨written, none, false⟩
    let tight := s.onto ⟨written, some n, false⟩
    let limit := written.size + n
    (∀ fuel v s', free.run host fuel source = some (v, s') →
      s'.machine.sink.written.size ≤ limit →
      tight.run host fuel source = some (v, s'.onto
        ⟨s'.machine.sink.written, some (limit - s'.machine.sink.written.size), false⟩)) ∧
    ∀ bytes, free.Writes host source bytes → limit < bytes.size →
      ∃ s', s'.machine.sink.written = bytes.extract 0 limit ∧
        (∃ fuel, tight.run host fuel source = some (.ran (.failed (.output .full)), s')) ∧
        ∀ fuel r, tight.run host fuel source = some r →
          r = (.ran (.failed (.output .full)), s') := by
  intro free tight limit
  refine ⟨fun fuel v s' hrun hfits => Session.run_cutAt hrun hfits, fun bytes hbytes hsize => ?_⟩
  obtain ⟨job, t, hjob, ht, rfl⟩ :=
    hbytes.exists_reaches (Nat.lt_of_le_of_lt (Nat.le_add_right _ _) hsize)
  obtain ⟨s', fuel, hends, hwritten⟩ := Session.exists_run_of_reaches hjob ht hsize
  exact ⟨s', hwritten, ⟨fuel, hends⟩, fun fuel' r hr => Session.run_unique hr hends⟩

/-- The state of a job when its first statement has made some steps. -/
def Job.stateAfter? (host : Host) (n : Nat) (job : Job) : Option State :=
  job.statements.head?.map fun s => (step host)^[n] (job.machine.begin false s)

/-- For witnesses: a state that is computed is one that the job reaches. -/
theorem Job.reaches_stateAfter? {host : Host} {n : Nat} {job : Job} {t : State}
    (h : job.stateAfter? host n = some t) : job.machine.Reaches host job.statements t := by
  obtain ⟨alone, statements, machine⟩ := job
  cases statements with
  | nil => cases h
  | cons s ss =>
    cases h
    exact .now s ss machine n

/-- A loop that prints again and again. -/
def Session.endlessPrints : String := "while (true) print \"ab\";"

/-- Where there is room for seven bytes, the loop that prints for ever ends in the middle of its
    third line. Something shorter ends as it does with more room. -/
theorem Session.little_room_only_cuts_endlessPrints :
    let tight := (Session.new Sink.unbounded).onto ⟨ByteArray.empty, some 7, false⟩
    (∃ fuel s', tight.run (Host.usual fun _ => 0) fuel Session.endlessPrints =
        some (.ran (.failed (.output .full)), s') ∧ s'.machine.sink.text = "ab\nab\na") ∧
      ∃ s', tight.run (Host.usual fun _ => 0) 5 "print true;" = some (.ran (.finished ()), s') ∧
        s'.machine.sink.text = "true\n" ∧ s'.machine.sink.room = some 2 := by
  intro tight
  let free := (Session.new Sink.unbounded).onto ⟨ByteArray.empty, none, false⟩
  constructor
  · have hmoment : (((Request.run Session.endlessPrints).job? free).bind
        (Job.stateAfter? (Host.usual fun _ => 0) 18)).any (fun t =>
          decide (ByteArray.empty.size + 7 < t.machine.sink.written.size) && decide
            (Text.Utf8.decodeCut (t.machine.sink.written.extract 0 (ByteArray.empty.size + 7)) =
              "ab\nab\na")) = true := by
      decide +kernel
    obtain ⟨t, ht, hwritten⟩ := (Option.any_eq_true _ _).1 hmoment
    obtain ⟨job, hjob, ht⟩ := Option.bind_eq_some_iff.1 ht
    obtain ⟨hsize, htext⟩ := Bool.and_eq_true_iff.1 hwritten
    generalize Session.endlessPrints = source at hjob ⊢
    obtain ⟨s', hs', ⟨fuel, hrun⟩, -⟩ :=
      (Session.little_room_only_cuts (Host.usual fun _ => 0) (Session.new Sink.unbounded) source
        ByteArray.empty 7).2 _ (.moment hjob (Job.reaches_stateAfter? ht)) (of_decide_eq_true hsize)
    refine ⟨fuel, s', hrun, ?_⟩
    unfold Sink.text
    rw [hs']
    exact of_decide_eq_true htext
  · have hends : (free.run (Host.usual fun _ => 0) 5 "print true;").any (fun r =>
        (match r.1 with | .ran o => o.isFinished | .rejected _ => false) &&
          (decide (r.2.machine.sink.written.size = 5) &&
          decide (r.2.machine.sink.text = "true\n"))) = true := by
      decide +kernel
    obtain ⟨⟨v, s'⟩, hrun, hfacts⟩ := (Option.any_eq_true _ _).1 hends
    generalize "print true;" = source at hrun ⊢
    obtain ⟨hverdict, hfacts⟩ := Bool.and_eq_true_iff.1 hfacts
    obtain ⟨hfive, htext⟩ := Bool.and_eq_true_iff.1 hfacts
    have hsize : s'.machine.sink.written.size = 5 := of_decide_eq_true hfive
    cases v with
    | rejected => cases hverdict
    | ran o =>
      cases o with
      | failed | desync => cases hverdict
      | finished u =>
        have hsame := (Session.little_room_only_cuts (Host.usual fun _ => 0)
          (Session.new Sink.unbounded) source ByteArray.empty 7).1 5 _ s' hrun
            (by rw [hsize]; decide)
        refine ⟨_, hsame, of_decide_eq_true htext, ?_⟩
        show some (_ - s'.machine.sink.written.size) = some 2
        rw [hsize]
        rfl

end Scriptlet

import Scriptlet.Resolution
import Scriptlet.Store

namespace Scriptlet

/-!
# The machine

The state that a program changes while it runs.

* `Sink` — where output goes: the bytes written, how many more it takes, and whether it can be
  flushed.
* `Native` — a function of the host.
* `Host` — what the host lays down: how deep calls may nest, and what its clock shows.
* `Machine` — store, current environment, resolved depths, sink, number of calls in progress.
-/

/-! ### Output -/

/-- Where output goes. -/
structure Sink where
  written : ByteArray
  /-- How many more bytes are taken; without a bound if absent. -/
  room : Option Nat
  flushFails : Bool

namespace Sink

/-- A sink that takes everything. -/
def unbounded : Sink := ⟨ByteArray.empty, none, false⟩

/-- Write text as far as there is room, and tell whether all of it was written. -/
def write (s : Sink) (text : String) : Bool × Sink :=
  let bytes := text.toUTF8
  match s.room with
  | none => (true, { s with written := s.written ++ bytes })
  | some room =>
    if bytes.size ≤ room then
      (true, { s with written := s.written ++ bytes, room := some (room - bytes.size) })
    else
      (false, { s with written := s.written ++ bytes.extract 0 room, room := some 0 })

/-- The text written so far. -/
def text (s : Sink) : String := Text.Utf8.decodeCut s.written

/-- The same sink, what was written being taken away. -/
def drain (s : Sink) : Sink := { s with written := ByteArray.empty }

end Sink

/-! ### Host functions -/

/-- What a function of the host does. -/
inductive NativeAction where
  /-- Reads the clock. -/
  | clock
  | apply (f : List Value → Except String Value)

/-- A function of the host. -/
structure Native where
  name : String
  arity : Nat
  action : NativeAction

/-- What the host lays down for a run. -/
structure Host where
  /-- How many calls may be in progress at once. -/
  maxCalls : Nat
  /-- What the clock shows when it is read for the first, second, … time. -/
  clock : Nat → Float

/-- The usual host, with the given clock: 1024 calls may be in progress. -/
def Host.usual (clock : Nat → Float) : Host := ⟨1024, clock⟩

/-! ### The machine -/

/-- The state that a program changes. -/
structure Machine where
  store : Store
  /-- The current environment. -/
  env : Env
  depths : Depths
  sink : Sink
  /-- The number of calls of functions and classes in progress. -/
  callDepth : Nat
  natives : Array Native
  /-- The next free number for functions and classes. -/
  nextId : ObjectId
  /-- How often the clock was read. -/
  ticks : Nat

namespace Machine

/-- The environment outside of all scopes. -/
def globals : Env := [0]

/-- Bind a function of the host to a global name. -/
def defineNative (m : Machine) (native : Native) : Machine :=
  { m with
    store := m.store.define 0 native.name (.native m.natives.size)
    natives := m.natives.push native }

/-- A machine in which only the clock is defined. -/
def new (sink : Sink) : Machine :=
  let m : Machine :=
    { store := Store.empty.newFrame.2, env := globals, depths := ∅, sink, callDepth := 0,
      natives := #[], nextId := 0, ticks := 0 }
  m.defineNative ⟨"clock", 0, .clock⟩

/-- Bind a variable in a frame. -/
def defineIn (m : Machine) (f : FrameId) (name : String) (v : Value) : Machine :=
  { m with store := m.store.define f name v }

/-- Bind a variable in the innermost frame of the current environment. -/
def define (m : Machine) (name : String) (v : Value) : Machine :=
  match m.env with
  | [] => m
  | f :: _ => m.defineIn f name v

/-- Change a variable that a frame holds. -/
def assignIn (m : Machine) (f : FrameId) (name : String) (v : Value) : Machine :=
  { m with store := m.store.assign f name v }

/-- Change a variable that the innermost frame of the current environment holds. -/
def assign (m : Machine) (name : String) (v : Value) : Machine :=
  match m.env with
  | [] => m
  | f :: _ => m.assignIn f name v

/-- A variable that was just bound is assigned to as if it were bound again. -/
theorem assign_define (m : Machine) (name : String) (u v : Value) :
    (m.define name u).assign name v = (m.define name u).define name v := by
  obtain ⟨store, env, depths, sink, callDepth, natives, nextId, ticks⟩ := m
  cases env with
  | nil => rfl
  | cons f env =>
    have hholds (hf : f < (store.define f name u).frames.size) :=
      Store.holds_define_self (store.size_define f name u ▸ hf) name u
    have hstore := Store.assign_eq_define hholds v
    unfold define assign assignIn defineIn
    simp only [hstore]

/-- A function as a value of its own. -/
def newFunction (m : Machine) (closure : Closure) : Value × Machine :=
  (.function m.nextId closure, { m with nextId := m.nextId + 1 })

/-- A class as a value of its own. -/
def newClass (m : Machine) (cls : Class) : Value × Machine :=
  (.classObj m.nextId cls, { m with nextId := m.nextId + 1 })

/-- A frame with the given variables, the last of the same name counting. -/
def newFrame (m : Machine) (vars : List (String × Value)) : FrameId × Machine :=
  let (f, store) := m.store.newFrame
  (f, { m with store := vars.foldl (fun s (name, v) => s.define f name v) store })

/-- A method that belongs to an object: around it, `this` is bound to the object. -/
def bindMethod (m : Machine) (method : Closure) (object : Value) : Closure × Machine :=
  let (f, m) := m.newFrame [("this", object)]
  ({ method with env := f :: method.env }, m)

/-- An object as a debugger shows it. -/
def inspect (m : Machine) (id : ObjectId) (cls : Class) : String :=
  cls.inspectObject (m.store.fields id).keys

end Machine

end Scriptlet

import Scriptlet.Error
import Scriptlet.Value
import Std.Data.TreeMap

namespace Scriptlet

/-!
# The store

Where variables and the fields of objects are kept.

* `Frame` — the variables of one scope; `Fields` — the fields of one object.
* `Store` — all frames and fields, by address. Nothing is ever removed.
* `Store.define` — bind a variable in a frame; `Store.assign` — change one that is there.
* `Store.lookup?`, `Store.assign?` — a variable by its name: the innermost frame of the
  environment that holds it.
* `Store.lookupAt?`, `Store.assignAt?` — a variable by its name and the number of frames to pass.
* `Desync` — a variable that is not where its depth says.

The changes to one frame are apart from the search for it, so that a store which is not shared is
changed in place.
-/

/-- The variables of a scope. -/
abbrev Frame := Std.TreeMap String Value

/-- The fields of an object. -/
abbrev Fields := Std.TreeMap String Value

/-- The frames and fields in use. -/
structure Store where
  frames : Array Frame
  objects : Array Fields

/-- What a node does with its variable. -/
inductive Access where
  | read | assignment
  deriving Repr, DecidableEq

/-- A variable that is not in the frame its depth points at. -/
structure Desync where
  access : Access
  name : String
  deriving Repr, DecidableEq

def Access.word : Access → String
  | read => "read"
  | assignment => "assignment"

def Desync.message (d : Desync) : String :=
  "resolved " ++ d.access.word ++ " of '" ++ d.name ++
    "' found no binding at its recorded depth; resolver and interpreter scopes are out of sync"

namespace Store

def empty : Store := ⟨#[], #[]⟩

/-! ### Frames -/

/-- Make a frame without variables. -/
def newFrame (s : Store) : FrameId × Store :=
  (s.frames.size, { s with frames := s.frames.push ∅ })

/-- The value of a variable of one frame. -/
def get? (s : Store) (f : FrameId) (name : String) : Option Value :=
  match s.frames[f]? with
  | some frame => frame[name]?
  | none => none

/-- Whether a frame holds a variable. -/
def holds (s : Store) (f : FrameId) (name : String) : Bool := (s.get? f name).isSome

/-- Bind a variable in a frame, in place of any earlier binding there. -/
def define (s : Store) (f : FrameId) (name : String) (v : Value) : Store :=
  { s with frames := s.frames.modify f (·.insert name v) }

/-- Give a variable that a frame holds another value. Where the frame does not hold it, none is
    made. -/
def assign (s : Store) (f : FrameId) (name : String) (v : Value) : Store :=
  { s with
    frames := s.frames.modify f fun frame =>
      if frame.contains name then frame.insert name v else frame }

/-- A new frame holds nothing, and the others are as before. -/
@[simp]
theorem get?_newFrame (s : Store) (f : FrameId) (name : String) :
    s.newFrame.2.get? f name = s.get? f name := by
  unfold newFrame get?
  by_cases h : f = s.frames.size
  · simp [h]
  · simp [Array.getElem?_push, h]

/-- A definition changes one variable of one frame. -/
theorem get?_define (s : Store) (f g : FrameId) (name other : String) (v : Value) :
    (s.define f name v).get? g other =
      if g = f ∧ other = name ∧ f < s.frames.size then some v else s.get? g other := by
  unfold define get?
  by_cases hf : g = f
  · subst hf
    by_cases hb : g < s.frames.size
    · by_cases hn : other = name
      · subst hn
        simp [hb, Array.getElem_modify]
      · simp [hb, hn, Array.getElem_modify, Std.TreeMap.getElem?_insert, Ne.symm hn]
    · simp [hb]
  · simp [Array.getElem?_modify, hf, Ne.symm hf]

/-- A frame that holds a variable is in use. -/
theorem lt_of_holds {s : Store} {f : FrameId} {name : String} (h : s.holds f name = true) :
    f < s.frames.size := by
  unfold holds get? at h
  by_cases hf : f < s.frames.size
  · exact hf
  · simp [Array.getElem?_eq_none (Nat.le_of_not_lt hf)] at h

@[simp]
theorem size_define (s : Store) (f : FrameId) (name : String) (v : Value) :
    (s.define f name v).frames.size = s.frames.size := Array.size_modify

/-- A definition in a frame that is in use. -/
theorem holds_define_self {s : Store} {f : FrameId} (hf : f < s.frames.size) (name : String)
    (v : Value) : (s.define f name v).holds f name = true := by
  unfold holds
  rw [get?_define, if_pos ⟨rfl, rfl, hf⟩]
  rfl

/-- What `assign` does to a frame that holds the variable, or is not in use, is what `define`
    does. -/
theorem assign_eq_define {s : Store} {f : FrameId} {name : String}
    (h : f < s.frames.size → s.holds f name = true) (v : Value) :
    s.assign f name v = s.define f name v := by
  unfold assign define
  congr 1
  apply Array.ext_getElem?
  intro g
  rw [Array.getElem?_modify, Array.getElem?_modify]
  split
  · next hg =>
    subst hg
    cases hframe : s.frames[f]? with
    | none => rfl
    | some frame =>
      have hholds := h (Array.getElem?_eq_some_iff.1 hframe).1
      unfold holds get? at hholds
      rw [hframe] at hholds
      have hcontains : frame.contains name = true := by simpa using hholds
      rw [Option.map_some, Option.map_some, hcontains, if_pos rfl]
  · rfl

/-- An assignment changes one variable of one frame, if it is there. -/
theorem get?_assign (s : Store) (f g : FrameId) (name other : String) (v : Value) :
    (s.assign f name v).get? g other =
      if g = f ∧ other = name ∧ s.holds f name = true then some v else s.get? g other := by
  cases hholds : s.holds f name with
  | true =>
    rw [assign_eq_define fun _ => hholds, get?_define]
    simp [lt_of_holds hholds]
  | false =>
    simp only [Bool.false_eq_true, and_false, if_false]
    unfold holds get? at hholds
    unfold assign get?
    rw [Array.getElem?_modify]
    by_cases hg : f = g
    · subst hg
      rw [if_pos rfl]
      cases hframe : s.frames[f]? with
      | none => rfl
      | some frame =>
        rw [hframe] at hholds
        have hcontains : frame.contains name = false := by simpa using hholds
        simp only [Option.map_some, hcontains, Bool.false_eq_true, if_false]
    · rw [if_neg hg]

/-! ### Environments -/

/-- The innermost frame of an environment that holds a variable. -/
def holder? (s : Store) (env : Env) (name : String) : Option FrameId :=
  env.find? (s.holds · name)

/-- The frame behind the first `depth` ones of an environment, if it holds a variable. -/
def holderAt? (s : Store) (env : Env) (depth : Nat) (name : String) : Option FrameId :=
  env[depth]?.filter (s.holds · name)

/-- The value of a variable. -/
def lookup? (s : Store) (env : Env) (name : String) : Option Value :=
  (s.holder? env name).bind (s.get? · name)

/-- Change the value of a variable; none if no frame holds it. -/
def assign? (s : Store) (env : Env) (name : String) (v : Value) : Option Store :=
  (s.holder? env name).map (s.assign · name v)

/-- The value of a variable of the frame behind the first `depth` ones. -/
def lookupAt? (s : Store) (env : Env) (depth : Nat) (name : String) : Option Value :=
  (s.holderAt? env depth name).bind (s.get? · name)

/-- Change the value of a variable of the frame behind the first `depth` ones; none if that
    frame does not hold it. -/
def assignAt? (s : Store) (env : Env) (depth : Nat) (name : String) (v : Value) :
    Option Store :=
  (s.holderAt? env depth name).map (s.assign · name v)

/-- What `holder?` finds holds the variable. -/
theorem holds_of_holder? {s : Store} {env : Env} {name : String} {f : FrameId}
    (h : s.holder? env name = some f) : s.holds f name = true :=
  List.find?_some (p := fun f => s.holds f name) h

/-- What `holderAt?` finds holds the variable. -/
theorem holds_of_holderAt? {s : Store} {env : Env} {depth : Nat} {name : String} {f : FrameId}
    (h : s.holderAt? env depth name = some f) : s.holds f name = true :=
  (Option.filter_eq_some_iff.1 h).2

/-! ### Objects -/

/-- Make an object without fields. -/
def newObject (s : Store) : ObjectId × Store :=
  (s.objects.size, { s with objects := s.objects.push ∅ })

/-- The fields of an object. -/
def fields (s : Store) (id : ObjectId) : Fields := s.objects[id]?.getD ∅

/-- Set a field of an object. -/
def setField (s : Store) (id : ObjectId) (name : String) (v : Value) : Store :=
  { s with objects := s.objects.modify id (·.insert name v) }

end Store

end Scriptlet

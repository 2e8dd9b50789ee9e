import Mathlib.Data.List.Basic
import Scriptlet.Machine

namespace Scriptlet

/-!
# Frames of variables

What changes to a store keep. Nothing that a frame holds is ever lost, and every value that is
found was put there.

* `Store.Extends` — a later store: what was held is held, and the frames of the earlier one are
  the first ones.
* `Store.holds_defineAll` — a frame holds the variables that are bound in it.
* `Machine.newFrame_eq`, `Machine.bindMethod_eq` — how the machine makes frames.
-/

namespace Store

/-! ### Changes to one frame -/

variable {s : Store} {f g : FrameId} {x y : String} {v v' : Value} {vars : List (String × Value)}

/-- `assign` adds no frame. -/
@[simp]
theorem size_assign (s : Store) (f : FrameId) (x : String) (v : Value) :
    (s.assign f x v).frames.size = s.frames.size := Array.size_modify

/-- `define` leaves the fields of objects. -/
@[simp]
theorem fields_define (s : Store) (f : FrameId) (x : String) (v : Value) (id : ObjectId) :
    (s.define f x v).fields id = s.fields id := rfl

/-- `newFrame` adds one frame. -/
@[simp]
theorem size_newFrame (s : Store) : s.newFrame.2.frames.size = s.frames.size + 1 := by
  unfold newFrame
  exact Array.size_push _

/-- `newFrame` leaves the fields of objects. -/
@[simp]
theorem fields_newFrame (s : Store) (id : ObjectId) : s.newFrame.2.fields id = s.fields id := rfl

/-- What is found after a definition is the value defined, or was there before. -/
theorem eq_or_get?_of_define (h : (s.define f x v).get? g y = some v') :
    v' = v ∨ s.get? g y = some v' := by
  rw [get?_define] at h
  split at h
  · exact .inl (Option.some.inj h).symm
  · exact .inr h

/-- A later store. -/
structure Extends (s s' : Store) : Prop where
  holds : ∀ f x, s.holds f x = true → s'.holds f x = true
  size : s.frames.size ≤ s'.frames.size

namespace Extends

/-- A store is a later one of itself. -/
theorem refl (s : Store) : s.Extends s := ⟨fun _ _ h => h, Nat.le_refl _⟩

/-- What is later than a later store is later. -/
theorem trans {s s' s'' : Store} (h : s.Extends s') (h' : s'.Extends s'') : s.Extends s'' :=
  ⟨fun f x hx => h'.holds f x (h.holds f x hx), Nat.le_trans h.size h'.size⟩

end Extends

/-- `define` loses nothing. -/
theorem extends_define (s : Store) (f : FrameId) (x : String) (v : Value) :
    s.Extends (s.define f x v) := by
  refine ⟨fun g y h => ?_, Nat.le_of_eq (size_define s f x v).symm⟩
  unfold holds
  rw [get?_define]
  split
  · rfl
  · exact h

/-- `newFrame` loses nothing. -/
theorem extends_newFrame (s : Store) : s.Extends s.newFrame.2 := by
  refine ⟨fun f x h => ?_, by rw [size_newFrame]; exact Nat.le_succ _⟩
  unfold holds
  rw [get?_newFrame]
  exact h

/-! ### Several definitions in one frame -/

/-- Variables are bound one after the other. -/
def defineAll (s : Store) (f : FrameId) (vars : List (String × Value)) : Store :=
  vars.foldl (fun s (name, v) => s.define f name v) s

/-- `defineAll` adds no frame. -/
@[simp]
theorem size_defineAll (s : Store) (f : FrameId) (vars : List (String × Value)) :
    (s.defineAll f vars).frames.size = s.frames.size := by
  induction vars generalizing s with
  | nil => rfl
  | cons p vars ih => exact (ih _).trans (size_define s f p.1 p.2)

/-- `defineAll` leaves the fields of objects. -/
@[simp]
theorem fields_defineAll (s : Store) (f : FrameId) (vars : List (String × Value))
    (id : ObjectId) : (s.defineAll f vars).fields id = s.fields id := by
  induction vars generalizing s with
  | nil => rfl
  | cons p vars ih => exact (ih _).trans (fields_define s f p.1 p.2 id)

/-- `defineAll` leaves the objects. -/
@[simp]
theorem objects_defineAll (s : Store) (f : FrameId) (vars : List (String × Value)) :
    (s.defineAll f vars).objects = s.objects := by
  induction vars generalizing s with
  | nil => rfl
  | cons p vars ih => exact ih _

/-- Other frames stay as they are. -/
theorem get?_defineAll_of_ne (s : Store) (h : g ≠ f) (vars : List (String × Value)) (x : String) :
    (s.defineAll f vars).get? g x = s.get? g x := by
  induction vars generalizing s with
  | nil => rfl
  | cons p vars ih =>
    refine (ih _).trans ?_
    rw [get?_define, if_neg fun heq => h heq.1]

/-- `defineAll` loses nothing. -/
theorem extends_defineAll (s : Store) (f : FrameId) (vars : List (String × Value)) :
    s.Extends (s.defineAll f vars) := by
  induction vars generalizing s with
  | nil => exact Extends.refl s
  | cons p vars ih => exact (extends_define s f p.1 p.2).trans (ih _)

/-- A frame holds all variables that `defineAll` binds in it. -/
theorem holds_defineAll (hf : f < s.frames.size) (hx : x ∈ vars.map Prod.fst) :
    (s.defineAll f vars).holds f x = true := by
  induction vars generalizing s with
  | nil => exact absurd hx List.not_mem_nil
  | cons p vars ih =>
    rcases List.mem_cons.1 hx with rfl | hx
    · exact (extends_defineAll _ f vars).holds f _ (holds_define_self hf p.1 p.2)
    · exact ih (by rw [size_define]; exact hf) hx

/-- What is found after `defineAll` is a value bound, or was there before. -/
theorem mem_or_get?_of_defineAll (h : (s.defineAll f vars).get? g x = some v) :
    v ∈ vars.map Prod.snd ∨ s.get? g x = some v := by
  induction vars generalizing s with
  | nil => exact .inr h
  | cons p vars ih =>
    rcases ih h with hmem | hget
    · exact .inl (List.mem_cons_of_mem _ hmem)
    · rcases eq_or_get?_of_define hget with rfl | hget
      · exact .inl List.mem_cons_self
      · exact .inr hget

/-! ### Objects -/

/-- `newObject` leaves the frames. -/
theorem extends_newObject (s : Store) : s.Extends s.newObject.2 := ⟨fun _ _ h => h, Nat.le_refl _⟩

/-- `setField` leaves the frames. -/
theorem extends_setField (s : Store) (id : ObjectId) (x : String) (v : Value) :
    s.Extends (s.setField id x v) := ⟨fun _ _ h => h, Nat.le_refl _⟩

/-- A new object has no fields. -/
@[simp]
theorem fields_newObject (s : Store) (id : ObjectId) : s.newObject.2.fields id = s.fields id := by
  unfold newObject fields
  by_cases h : id = s.objects.size
  · simp [h]
  · simp [Array.getElem?_push, h]

/-- What is found in a field is the value set, or was there before. -/
theorem eq_or_fields_of_setField {id id' : ObjectId}
    (h : ((s.setField id x v).fields id')[y]? = some v') :
    v' = v ∨ (s.fields id')[y]? = some v' := by
  unfold setField fields at h
  simp only [Array.getElem?_modify] at h
  split at h
  · next hid =>
    subst hid
    unfold fields
    cases hfields : s.objects[id]? with
    | none =>
      rw [hfields] at h
      exact .inr h
    | some fields =>
      rw [hfields] at h
      simp only [Option.map_some, Option.getD_some] at h ⊢
      rw [Std.TreeMap.getElem?_insert] at h
      split at h
      · exact .inl (Option.some.inj h).symm
      · exact .inr h
  · exact .inr h

end Store

namespace Machine

/-- A new frame is the last one, and holds the given variables. -/
theorem newFrame_eq (m : Machine) (vars : List (String × Value)) :
    m.newFrame vars = (m.store.frames.size,
      { m with store := m.store.newFrame.2.defineAll m.store.frames.size vars }) := rfl

/-- A method is bound in a new frame that holds only `this`. -/
theorem bindMethod_eq (m : Machine) (method : Closure) (object : Value) :
    m.bindMethod method object =
      ({ method with env := m.store.frames.size :: method.env },
        { m with
          store := m.store.newFrame.2.defineAll m.store.frames.size [("this", object)] }) := rfl

/-- `bindMethod` adds one frame. -/
@[simp]
theorem size_bindMethod (m : Machine) (method : Closure) (object : Value) :
    (m.bindMethod method object).2.store.frames.size = m.store.frames.size + 1 := by
  rw [bindMethod_eq, Store.size_defineAll, Store.size_newFrame]

/-- In a bound method that frame is the innermost one. -/
@[simp]
theorem env_bindMethod (m : Machine) (method : Closure) (object : Value) :
    (m.bindMethod method object).1.env = m.store.frames.size :: method.env := rfl

end Machine

end Scriptlet

import Mathlib.Data.List.Forall2
import Scriptlet.Proofs.History
import Scriptlet.Value.Operator

namespace Scriptlet

/-!
# What can be told about a value from outside

Operators and functions of the host do not look into functions, classes and objects: the code and
the environment of a value are of no account to them.

* `Value.SameFace` — values that differ in code and environments only.
* `Value.SameResult` — results of two computations on lists of values that come about in the same
  way: the same complaint, the same plain value, or the value at the same place.
* `Value.SameFace.applyUnary`, `Value.SameFace.applyBinary` — so do the results of operators on
  values with the same face.
* `Native.Outward` — and those of a function of the host that does not look into values.
-/

/-- Values that differ in code and environments only. -/
inductive Value.SameFace : Value → Value → Prop
  | nil : SameFace .nil .nil
  | bool (b : Bool) : SameFace (.bool b) (.bool b)
  | number (x : Float) : SameFace (.number x) (.number x)
  | string (s : String) : SameFace (.string s) (.string s)
  | native (index : Nat) : SameFace (.native index) (.native index)
  | function {id f f'} (name : f'.name? = f.name?) (arity : f'.arity = f.arity)
      (isInitializer : f'.isInitializer = f.isInitializer) :
      SameFace (.function id f) (.function id f')
  | classObj {id k k'} (name : k'.name = k.name) (arity : k'.arity = k.arity) :
      SameFace (.classObj id k) (.classObj id k')
  | object {id k k'} (name : k'.name = k.name) (arity : k'.arity = k.arity) :
      SameFace (.object id k) (.object id k')

/-- Results that come about in the same way from two lists of values. -/
inductive Value.SameResult {ε : Type} (vs vs' : List Value) :
    Except ε Value → Except ε Value → Prop
  | error (e : ε) : SameResult vs vs' (.error e) (.error e)
  | plain {v} (h : v.isPlain = true) : SameResult vs vs' (.ok v) (.ok v)
  | given {v v'} (i : Nat) (h : vs[i]? = some v) (h' : vs'[i]? = some v') :
      SameResult vs vs' (.ok v) (.ok v')

/-- Results that come about in the same way from values that `R` relates: the same complaint, or
    values that `R` relates. -/
theorem Value.SameResult.rel {ε : Type} {R : Value → Value → Prop} {vs vs' : List Value}
    {r r' : Except ε Value} (h : Value.SameResult vs vs' r r')
    (hplain : ∀ v : Value, v.isPlain = true → R v v) (hvs : List.Forall₂ R vs vs') :
    (∃ e, r = .error e ∧ r' = .error e) ∨ ∃ v v', r = .ok v ∧ r' = .ok v' ∧ R v v' := by
  cases h with
  | error e => exact .inl ⟨e, rfl, rfl⟩
  | plain hv => exact .inr ⟨_, _, rfl, rfl, hplain _ hv⟩
  | given i hv hv' =>
    obtain ⟨hlt, rfl⟩ := List.getElem?_eq_some_iff.1 hv
    obtain ⟨hlt', rfl⟩ := List.getElem?_eq_some_iff.1 hv'
    exact .inr ⟨_, _, rfl, rfl, hvs.get hlt hlt'⟩

/-- A function of the host that does not look into values. -/
def Native.Outward (native : Native) : Prop :=
  ∀ f, native.action = .apply f → ∀ vs vs', List.Forall₂ Value.SameFace vs vs' →
    Value.SameResult vs vs' (f vs) (f vs')

theorem Value.SameFace.refl (v : Value) : SameFace v v := by
  cases v <;> constructor <;> rfl

/-- A function that does not look into values is `Native.Honest`: what it yields for arguments, and
    for the same ones again, comes about in the same way. -/
theorem Native.Outward.honest {native : Native} (h : native.Outward) : native.Honest := by
  unfold Native.Honest
  cases haction : native.action with
  | clock => trivial
  | apply f =>
    intro arguments v hv
    have hsame := h f haction arguments arguments 
      (List.forall₂_same.2 fun v _ => .refl v)
    rw [hv] at hsame
    cases hsame with
    | plain hv => exact .inl hv
    | given i hi => exact .inr (List.mem_of_getElem? hi)

namespace Value.SameFace

variable {v v' a a' b b' : Value}

theorem display_eq (h : SameFace v v') : v'.display = v.display := by
  cases h with
  | function name => simp only [Value.display, name]
  | classObj name => exact name
  | object name => exact congrArg (· ++ " instance") name
  | _ => rfl

theorem isTruthy_eq (h : SameFace v v') : v'.isTruthy = v.isTruthy := by
  cases h <;> rfl

theorem settles_eq (h : SameFace v v') (op : Token) : v'.settles op = v.settles op := by
  unfold Value.settles
  rw [h.isTruthy_eq]

theorem same_eq (ha : SameFace a a') (hb : SameFace b b') : a'.same b' = a.same b := by
  cases ha <;> cases hb <;> rfl

theorem numbers_eq (ha : SameFace a a') (hb : SameFace b b') :
    Value.numbers a' b' = Value.numbers a b := by
  cases ha <;> cases hb <;> rfl

theorem applyUnary (h : SameFace v v') (op : Token) :
    SameResult [v] [v'] (v.applyUnary op) (v'.applyUnary op) := by
  unfold Value.applyUnary
  split
  · cases h with
    | number x => exact .plain rfl
    | _ => exact .error _
  · rw [h.isTruthy_eq]
    exact .plain rfl
  · exact .error _

theorem arithmetic (f : Float → Float → Float) (ha : SameFace a a') (hb : SameFace b b') :
    SameResult [a, b] [a', b'] (Value.arithmetic f a b) (Value.arithmetic f a' b') := by
  unfold Value.arithmetic
  rw [ha.numbers_eq hb]
  cases Value.numbers a b with
  | ok xy => exact .plain rfl
  | error e => exact .error e

theorem order (r : Float → Float → Bool) (ha : SameFace a a') (hb : SameFace b b') :
    SameResult [a, b] [a', b'] (Value.order r a b) (Value.order r a' b') := by
  unfold Value.order
  rw [ha.numbers_eq hb]
  cases Value.numbers a b with
  | ok xy => exact .plain rfl
  | error e => exact .error e

theorem divide (ha : SameFace a a') (hb : SameFace b b') :
    SameResult [a, b] [a', b'] (Value.divide a b) (Value.divide a' b') := by
  unfold Value.divide
  rw [ha.numbers_eq hb]
  cases Value.numbers a b with
  | ok xy =>
    simp only
    split
    · exact .error _
    · exact .plain rfl
  | error e => exact .error e

/-- A string on the right asks for the text of what stands on the left. -/
theorem add_string (a : Value) (s : String) :
    a.add (.string s) = .ok (.string (a.display ++ s)) := by
  cases a <;> rfl

theorem add (ha : SameFace a a') (hb : SameFace b b') :
    SameResult [a, b] [a', b'] (Value.add a b) (Value.add a' b') := by
  have hdisplay := ha.display_eq
  cases ha with
  | string s =>
    show SameResult _ _ (.ok (.string (s ++ b.display))) (.ok (.string (s ++ b'.display)))
    rw [hb.display_eq]
    exact .plain rfl
  | number x =>
    cases hb with
    | number y => exact .plain rfl
    | string s => exact .plain rfl
    | _ => exact .error _
  | _ =>
    cases hb with
    | string s =>
      simp only [add_string, hdisplay]
      exact .plain rfl
    | _ => exact .error _

/-- The comma yields what stands on the right; all other operators yield plain values. -/
theorem applyBinary (ha : SameFace a a') (hb : SameFace b b') (op : Token) :
    SameResult [a, b] [a', b'] (a.applyBinary op b) (a'.applyBinary op b') := by
  unfold Value.applyBinary
  split
  · exact .given 1 rfl rfl
  · exact ha.add hb
  · exact ha.arithmetic _ hb
  · exact ha.arithmetic _ hb
  · exact ha.divide hb
  · exact ha.order _ hb
  · exact ha.order _ hb
  · exact ha.order _ hb
  · exact ha.order _ hb
  · rw [ha.same_eq hb]
    exact .plain rfl
  · rw [ha.same_eq hb]
    exact .plain rfl
  · exact .error _

end Value.SameFace

end Scriptlet

namespace Scriptlet.Text.Utf8

/-!
# UTF-8 decoding

Bytes as text, and where and why they are no text.

* `Fault` — the index of the first byte that starts no character, and how many bytes belong to
  the broken sequence; none if the bytes end in the middle of a character.
* `fault?` — the first fault of a list of bytes.
* `decode` — the text, or its first fault.
-/

/-- The first place at which bytes are no text. -/
structure Fault where
  index : Nat
  /-- How many bytes form the broken sequence; absent where the input ended too early. -/
  length : Option Nat
  deriving Repr, DecidableEq

/-- What is said about bytes that are no text. -/
def Fault.message (f : Fault) : String :=
  match f.length with
  | some n => s!"invalid utf-8 sequence of {n} bytes from index {f.index}"
  | none => s!"incomplete utf-8 byte sequence from index {f.index}"

/-- How many bytes the character that starts with `first` has; none if no character does. -/
def width (first : UInt8) : Option Nat :=
  if first < 0x80 then some 1
  else if 0xc2 ≤ first && first < 0xe0 then some 2
  else if 0xe0 ≤ first && first < 0xf0 then some 3
  else if 0xf0 ≤ first && first < 0xf5 then some 4
  else none

/-- Whether a byte carries on a character. -/
def continues (b : UInt8) : Bool := 0x80 ≤ b && b < 0xc0

/-- Whether `b` may stand behind `first`: no overlong form, no surrogate, nothing above the last
    code point. -/
def follows (first b : UInt8) : Bool :=
  if first = 0xe0 then 0xa0 ≤ b && b < 0xc0
  else if first = 0xed then 0x80 ≤ b && b < 0xa0
  else if first = 0xf0 then 0x90 ≤ b && b < 0xc0
  else if first = 0xf4 then 0x80 ≤ b && b < 0x90
  else continues b

/-- The `count` bytes that are still missing, each checked by `continues`; `seen` bytes of the
    character are read. The result is the length of the character, or of the broken sequence. -/
def tail (seen : Nat) : Nat → List UInt8 → Except (Option Nat) Nat
  | 0, _ => .ok seen
  | _ + 1, [] => .error none
  | count + 1, b :: bs =>
    if continues b then tail (seen + 1) count bs else .error (some seen)

/-- The length of the character that starts with `first`, or of the broken sequence. -/
def sequenceLength (first : UInt8) (rest : List UInt8) : Except (Option Nat) Nat :=
  match width first, rest with
  | none, _ => .error (some 1)
  | some 0, _ => .error (some 1)
  | some 1, _ => .ok 1
  | some (_ + 2), [] => .error none
  | some (n + 2), b :: bs => if follows first b then tail 2 n bs else .error (some 1)

/-- The first fault behind the next `skip` bytes, the first byte having the index `index`. -/
def faultFrom (skip index : Nat) : List UInt8 → Option Fault
  | [] => none
  | b :: bs =>
    match skip with
    | n + 1 => faultFrom n (index + 1) bs
    | 0 =>
      match sequenceLength b bs with
      | .error length => some ⟨index, length⟩
      | .ok n => faultFrom (n - 1) (index + 1) bs

/-- The first fault of the bytes, if there is one. -/
def fault? (bytes : List UInt8) : Option Fault := faultFrom 0 0 bytes

/-- The text that the bytes encode. -/
def decode (bytes : ByteArray) : Except Fault String :=
  match fault? bytes.toList, String.fromUTF8? bytes with
  | some f, _ => .error f
  | none, some s => .ok s
  | none, none => .error ⟨0, none⟩

/-- The text of bytes that may break off in the middle of a character: such a rest is shown as
    one replacement character. -/
def decodeCut (bytes : ByteArray) : String :=
  match decode bytes with
  | .ok s => s
  | .error f =>
    match decode (bytes.extract 0 f.index) with
    | .ok s => s.push '�'
    | .error _ => ""

end Scriptlet.Text.Utf8

import Scriptlet.Decimal.Shortest

namespace Scriptlet.Decimal

/-!
# Notation of numbers

How a double is written out.

* `plain` — digits, a point where the value has a fraction, never an exponent.
* `compact` — always with a point or an exponent: positional from `10 ^ -5` up to `10 ^ 16`, and
  one digit, the others after the point, and a signed exponent outside of that range.
* `bitText` — the sixteen hexadecimal digits of the bit pattern.
-/

/-- The digits of the coefficient. -/
def Digits.text (d : Digits) : List Char := Nat.toDigits 10 d.coefficient

/-- Zeros between the point and the digits, or behind the digits. -/
private def zeros (n : Nat) : List Char := List.replicate n '0'

/-- Positional notation, without a point for whole numbers. -/
def Digits.positional (d : Digits) : String :=
  let ds := d.text
  if 0 ≤ d.exponent then String.ofList (ds ++ zeros d.exponent.toNat)
  else
    let after := (-d.exponent).toNat
    if after < ds.length then
      let cut := ds.length - after
      String.ofList (ds.take cut ++ '.' :: ds.drop cut)
    else String.ofList ('0' :: '.' :: zeros (after - ds.length) ++ ds)

/-- One digit, the others behind a point, and the exponent with its sign. -/
def Digits.scientific (d : Digits) : String :=
  let ds := d.text
  let exponent : Int := d.exponent + (ds.length - 1 : Nat)
  let mantissa := match ds with
    | [] => []
    | [c] => [c]
    | c :: rest => c :: '.' :: rest
  let sign := if exponent < 0 then "e-" else "e+"
  String.ofList mantissa ++ sign ++ toString exponent.natAbs

/-- Whether the sign bit is set. -/
def isNegative (x : Float) : Bool := x.toBits >>> 63 = 1

/-- Put the sign of `x` in front of the text of its magnitude. -/
def signed (x : Float) (magnitude : String) : String :=
  if isNegative x then "-" ++ magnitude else magnitude

/-- Whether `x` is a number proper: neither infinite nor undefined. -/
def isFinite (x : Float) : Bool := (x.toBits >>> 52) &&& 0x7ff != 0x7ff

/-- Plain notation: the fewest digits that read back, a tie going up, and no exponent however
    large or small the number is. A whole number has no point; zero keeps its sign. -/
def plain (x : Float) : String :=
  if x.isNaN then "NaN"
  else if !isFinite x then signed x "inf"
  else
    let d := Dyadic.ofFloat x
    if d.mantissa = 0 then signed x "0"
    else
      match d.nat? with
      | some n =>
        -- below 10 ^ 15 every digit counts, so the shortest decimal is the number itself
        if n < Nat.pow 10 15 then signed x (toString n) else signed x (d.shortest .up).positional
      | none => signed x (d.shortest .up).positional

/-- Compact notation of a finite number: the fewest digits that read back, a tie going to the
    even digit; a whole number in the positional range keeps `.0`. -/
def compact (x : Float) : String :=
  let d := Dyadic.ofFloat x
  if d.mantissa = 0 then signed x "0.0"
  else
    let digits := d.shortest .toEven
    let leading : Int := digits.exponent + (digits.text.length - 1 : Nat)
    if -5 ≤ leading ∧ leading < 16 then
      signed x (if 0 ≤ digits.exponent then digits.positional ++ ".0" else digits.positional)
    else signed x digits.scientific

/-- Sixteen hexadecimal digits of the bit pattern; every undefined number is `nan`. -/
def bitText (x : Float) : String :=
  if x.isNaN then "nan"
  else
    let ds := Nat.toDigits 16 x.toBits.toNat
    String.ofList (List.replicate (16 - ds.length) '0' ++ ds)

/-- The value of a run of decimal digits. -/
def natOfDigits (ds : List Char) : Nat :=
  ds.foldl (fun n c => 10 * n + (c.toNat - '0'.toNat)) 0

/-- The double nearest to `whole.fraction`, both given by their digits. -/
def read (whole fraction : List Char) : Float :=
  Float.ofScientific (natOfDigits (whole ++ fraction)) true fraction.length

end Scriptlet.Decimal

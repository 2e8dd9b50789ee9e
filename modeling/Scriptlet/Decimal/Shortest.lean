namespace Scriptlet.Decimal

/-!
# Shortest decimals

The decimal with the fewest digits that reads back as a given double, by exact arithmetic on
natural numbers.

* `Dyadic` — a finite double's magnitude as `mantissa · 2 ^ exponent`, read off its bits.
* `Span` — the magnitude and the two ends of its rounding interval over one denominator.
* `Digits` — a decimal `coefficient · 10 ^ exponent`.
* `Dyadic.shortest` — of the grids with 1, 2, … 17 digits the first that has a point in the
  interval; of two such points the nearer, and `Tie` decides between two equally near.
-/

/-! ### Magnitudes -/

/-- A finite double's magnitude, `mantissa · 2 ^ exponent`. -/
structure Dyadic where
  mantissa : Nat
  exponent : Int
  /-- Whether the next double below is only half a unit away, as it is just above a power of
      two. -/
  closeBelow : Bool
  deriving Repr, DecidableEq

/-- The magnitude of a finite double. -/
def Dyadic.ofFloat (x : Float) : Dyadic :=
  let bits := x.toBits.toNat
  let fraction := bits % Nat.pow 2 52
  let field : Nat := bits / Nat.pow 2 52 % Nat.pow 2 11
  if field = 0 then ⟨fraction, -1074, false⟩
  else ⟨fraction + Nat.pow 2 52, (field : Int) - 1075, fraction = 0 && 1 < field⟩

/-- The magnitude as a natural number, if it is one. -/
def Dyadic.nat? (d : Dyadic) : Option Nat :=
  if 0 ≤ d.exponent then some (d.mantissa * Nat.pow 2 d.exponent.toNat)
  else
    let divisor := Nat.pow 2 (-d.exponent).toNat
    if d.mantissa % divisor = 0 then some (d.mantissa / divisor) else none

/-- A magnitude and the ends of its rounding interval, all over `denominator`. -/
structure Span where
  low : Nat
  value : Nat
  high : Nat
  denominator : Nat
  /-- Whether the ends themselves round to the magnitude: they do when the mantissa is even. -/
  closed : Bool
  deriving Repr, DecidableEq

/-- The rounding interval: half a unit to either side, a quarter where the next double below
    is close. -/
def Dyadic.span (d : Dyadic) : Span :=
  let exponent := d.exponent - 2
  let factor := Nat.pow 2 exponent.toNat
  let value := 4 * d.mantissa
  { low := (value - if d.closeBelow then 1 else 2) * factor
    value := value * factor
    high := (value + 2) * factor
    denominator := Nat.pow 2 (-exponent).toNat
    closed := d.mantissa % 2 = 0 }

/-- Whether `numerator / denominator` lies in the interval. -/
def Span.holds (s : Span) (numerator denominator : Nat) : Bool :=
  let x := numerator * s.denominator
  let low := s.low * denominator
  let high := s.high * denominator
  if s.closed then low ≤ x && x ≤ high else low < x && x < high

/-! ### Decimals -/

/-- A decimal, `coefficient · 10 ^ exponent`. -/
structure Digits where
  coefficient : Nat
  exponent : Int
  deriving Repr, DecidableEq

/-- Move the zeros at the end of the coefficient into the exponent. -/
def Digits.trim : Nat → Digits → Digits
  | 0, d => d
  | n + 1, d =>
    if d.coefficient % 10 = 0 then trim n ⟨d.coefficient / 10, d.exponent + 1⟩ else d

/-- Which of two equally near decimals is taken. -/
inductive Tie where
  /-- The larger. -/
  | up
  /-- The one whose last digit is even. -/
  | toEven
  deriving Repr, DecidableEq

/-- The place of the first digit: the least `p` with `value < 10 ^ p`, for a positive value.
    Doubles below one start within 324 places of the point. -/
def Span.place (s : Span) : Int :=
  if s.denominator ≤ s.value then ((Nat.toDigits 10 (s.value / s.denominator)).length : Int)
  else
    match (List.range 400).find? (fun k => s.denominator ≤ s.value * Nat.pow 10 k) with
    | some k => 1 - (k : Int)
    | none => 0

/-- The point of the grid of multiples of `10 ^ unit` that stands for the value: the neighbour
    below or above it, if that lies in the interval. -/
def Span.onGrid (s : Span) (tie : Tie) (unit : Int) : Option Digits :=
  -- the grid's unit is `up / down`
  let up := Nat.pow 10 unit.toNat
  let down := Nat.pow 10 (-unit).toNat
  let below := s.value * down / (s.denominator * up)
  let rest := s.value * down % (s.denominator * up)
  let hit (c : Nat) : Option Digits :=
    if s.holds (c * up) down then some ⟨c, unit⟩ else none
  if rest = 0 then hit below
  else
    match hit below, hit (below + 1) with
    | some a, some b =>
      match compare (2 * rest) (s.denominator * up) with
      | .lt => some a
      | .gt => some b
      | .eq => if tie = .toEven ∧ below % 2 = 0 then some a else some b
    | some a, none => some a
    | none, b => b

/-- The decimal with the fewest digits that reads back as the positive magnitude `d`, trimmed.
    Seventeen digits always suffice. -/
def Dyadic.shortest (tie : Tie) (d : Dyadic) : Digits :=
  let s := d.span
  let place := s.place
  match (List.range 17).findSome? (fun n : Nat => s.onGrid tie (place - (n + 1 : Nat))) with
  | some digits => digits.trim 20
  | none => ⟨0, 0⟩

end Scriptlet.Decimal

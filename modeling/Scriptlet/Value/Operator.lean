import Scriptlet.Error
import Scriptlet.Value

namespace Scriptlet.Value

/-!
# Operators

What the unary and binary operators do to values.

* `negate`, `arithmetic`, `order` — operators that take numbers only.
* `add` — adds numbers, and joins the texts of any two values if one of them is a string.
* `divide` — refuses a quotient that is infinite.
* `applyUnary`, `applyBinary` — the operator that a token stands for.
-/

/-- The sign changed. -/
def negate : Value → Except RuntimeFault Value
  | .number x => .ok (.number (-x))
  | _ => .error .operandNotNumber

/-- Two numbers, or the complaint that they are none. -/
def numbers : Value → Value → Except RuntimeFault (Float × Float)
  | .number a, .number b => .ok (a, b)
  | _, _ => .error .operandsNotNumbers

/-- An operation on two numbers. -/
def arithmetic (f : Float → Float → Float) (a b : Value) : Except RuntimeFault Value :=
  match numbers a b with
  | .ok (x, y) => .ok (.number (f x y))
  | .error e => .error e

/-- A comparison of two numbers. -/
def order (r : Float → Float → Bool) (a b : Value) : Except RuntimeFault Value :=
  match numbers a b with
  | .ok (x, y) => .ok (.bool (r x y))
  | .error e => .error e

/-- The sum of two numbers, or the texts of the values joined if one is a string. -/
def add : Value → Value → Except RuntimeFault Value
  | .number a, .number b => .ok (.number (a + b))
  | .string a, b => .ok (.string (a ++ b.display))
  | a, .string b => .ok (.string (a.display ++ b))
  | _, _ => .error .operandsNotAddable

/-- The quotient of two numbers, unless it is infinite. -/
def divide (a b : Value) : Except RuntimeFault Value :=
  match numbers a b with
  | .ok (x, y) => if (x / y).isInf then .error .divideByZero else .ok (.number (x / y))
  | .error e => .error e

/-- The unary operator that a token stands for. -/
def applyUnary (op : Token) (v : Value) : Except RuntimeFault Value :=
  match op.kind with
  | .symbol .minus => negate v
  | .symbol .bang => .ok (.bool (!v.isTruthy))
  | _ => .error .invalidUnary

/-- The binary operator that a token stands for. -/
def applyBinary (op : Token) (a b : Value) : Except RuntimeFault Value :=
  match op.kind with
  | .symbol .comma => .ok b
  | .symbol .plus => add a b
  | .symbol .minus => arithmetic (· - ·) a b
  | .symbol .star => arithmetic (· * ·) a b
  | .symbol .slash => divide a b
  | .symbol .greater => order (fun x y => y < x) a b
  | .symbol .greaterEqual => order (fun x y => y ≤ x) a b
  | .symbol .less => order (fun x y => x < y) a b
  | .symbol .lessEqual => order (fun x y => x ≤ y) a b
  | .symbol .equalEqual => .ok (.bool (a.same b))
  | .symbol .bangEqual => .ok (.bool (!a.same b))
  | _ => .error .invalidBinary

/-- Whether a logical operator is settled by its first operand: `or` by a true one, any other by
    a false one. -/
def settles (op : Token) (v : Value) : Bool :=
  if op.is .orKw then v.isTruthy else !v.isTruthy

end Scriptlet.Value

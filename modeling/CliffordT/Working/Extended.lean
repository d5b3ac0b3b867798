import CliffordT.Working.Double
import CliffordT.Working.Instances
import CliffordT.Working.Quotient

/-!
Numbers of a working precision together with the two infinities that a floating-point number may stand for.

An infinity has a place in the order but no digits: everything that reads the digits of a number sees zero, changing the
sign changes nothing, and arithmetic with it is undefined.
-/

namespace CliffordT

/-- A number of a working precision, or an infinity. -/
inductive Extended (p : Nat) where
  /-- A number. -/
  | finite (x : Approx p)
  /-- An infinity, with its side. -/
  | infinite (negative : Bool)
  deriving Repr

namespace Extended

variable {p : Nat}

/-- What a floating-point pattern stands for. A pattern that means no number is refused. -/
def ofDouble (bits : UInt64) : Except Failure (Extended p) :=
  if Double.isFinite bits then
    let (m, e) := Double.value bits
    .ok (.finite (Approx.round p m e))
  else if Double.fraction bits = 0 then .ok (.infinite (Double.isNegative bits))
  else .error (.domain (.notFinite (Double.nonFiniteName bits)))

/-- The number that the digits stand for: zero for an infinity. -/
def digits : Extended p → Approx p
  | finite x => x
  | infinite _ => 0

/-- The number, for arithmetic; an infinity takes no part in it. -/
def number : Extended p → Except Failure (Approx p)
  | finite x => .ok x
  | infinite _ => .error .undefined

/-- The result of an operation on one number. -/
def lift (f : Approx p → Approx p) (x : Extended p) : Except Failure (Extended p) :=
  x.number.map fun x => finite (f x)

/-- The result of an operation on two numbers. -/
def lift₂ (f : Approx p → Approx p → Approx p) (x y : Extended p) : Except Failure (Extended p) := do
  let x ← x.number
  let y ← y.number
  return finite (f x y)

/-- The quotient of two numbers. -/
def quotient (x y : Extended p) : Except Failure (Extended p) := do
  let x ← x.number
  let y ← y.number
  return finite (← Scalar.quotient x y)

/-- The number with the other sign. An infinity stays on its side. -/
def neg : Extended p → Extended p
  | finite x => finite (-x)
  | infinite s => infinite s

/-- The absolute value. An infinity stays on its side. -/
def abs : Extended p → Extended p
  | finite x => finite x.abs
  | infinite s => infinite s

/-- The square root, absent for a negative number. -/
def sqrt? (x : Extended p) : Except Failure (Option (Extended p)) :=
  x.number.map fun x => x.sqrt?.map finite

/-- The order, in which the infinities are the ends. -/
def order : Extended p → Extended p → Ordering
  | finite x, finite y => x.order y
  | infinite s, infinite t => compare t.toNat s.toNat
  | infinite s, finite _ => if s then .lt else .gt
  | finite _, infinite t => if t then .gt else .lt

/-- The larger of two, the first if they are equal. -/
def larger (x y : Extended p) : Extended p := if order x y = .lt then y else x

/-- The smaller of two, the first if they are equal. -/
def smaller (x y : Extended p) : Extended p := if order y x = .lt then y else x

/-- Compares two numbers as `decideOrder` does. -/
def decideOrder (digits : Nat) (x y : Extended p) (decision : String) : Except Failure Ordering := do
  let x ← x.number
  let y ← y.number
  CliffordT.decideOrder digits x y decision

end Extended

end CliffordT

import CliffordT.Failure
import CliffordT.Number.Bits
import CliffordT.Text.Numeral
import CliffordT.Working.Double
import CliffordT.Working.Precision
import CliffordT.Working.Scalar

/-!
Real literals: exact fractions, possibly times `π`.

A fraction is kept as it was written and is never brought to lowest terms.
-/

namespace CliffordT

/-- The number `num / den`, times `π` if so marked. -/
structure Literal where
  /-- The numerator, which carries the sign. -/
  num : Int
  /-- The denominator. -/
  den : Nat
  /-- Whether the fraction is multiplied by `π`. -/
  timesPi : Bool
  /-- No denominator is zero. -/
  den_pos : 0 < den
  deriving DecidableEq, Repr

namespace Literal

/-- The exact value of a floating-point number. -/
def ofDouble (bits : UInt64) : Except Failure Literal :=
  if Double.isFinite bits then
    let (m, e) := Double.value bits
    .ok ⟨m * twoPow e.toNat, twoPow (-e).toNat, false, twoPow_pos _⟩
  else .error (.domain (.notFinite (Double.nonFiniteName bits)))

/-- Whether the number is known to lie strictly between zero and one; a multiple of `π` is not. -/
def isOpenUnit (l : Literal) : Bool := !l.timesPi && decide (0 < l.num) && decide (l.num < l.den)

/-- The coarse decimal logarithm of `den / |num|`, absent for zero. The factor `π` does not count. -/
def negLogTen? (l : Literal) : Option CoarseReal :=
  if l.num = 0 then none
  else some ((BinaryLog.ofNat l.den - BinaryLog.ofNat l.num.natAbs) / BinaryLog.ten)

/-- The slack that keeps an exact power of ten from counting as more than it is. -/
def logSlack : CoarseReal := Approx.ratio 1 (tenPow 9)

/-- The decimal digits before the point, and one more for a multiple of `π`. Reducing an angle of this size modulo
`2π` loses about as many leading digits. -/
def magnitudeDigits (l : Literal) : Nat :=
  let extra := if l.timesPi then 1 else 0
  match l.negLogTen? with
  | none => extra
  | some x =>
    let size := -x - logSlack
    if 0 < size.mant then size.ceil.toNat + extra else extra

/-- The decimal digits behind the point that a number below one needs, at least one. -/
def fractionDigits (l : Literal) : Nat :=
  match l.negLogTen? with
  | none => 1
  | some x => max 1 (x - logSlack).ceil.toNat

/-- The value as a scalar. -/
def eval {K : Type} [Scalar K] (l : Literal) : K :=
  let value : K := Scalar.ofInt l.num / Scalar.ofInt l.den
  if l.timesPi then value * Scalar.pi else value

/-- The written form, which reads back as the same literal. -/
def text (l : Literal) : String :=
  Numeral.ofInt l.num ++ (if l.timesPi then "*pi" else "") ++
    (if l.den = 1 then "" else "/" ++ Numeral.ofNat l.den)

instance : ToString Literal := ⟨text⟩

end Literal

end CliffordT

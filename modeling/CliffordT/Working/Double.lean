import CliffordT.Number.Bits
import CliffordT.Working.Decimal
import CliffordT.Working.Log

/-!
Floating-point numbers of 64 bits, as their bit patterns.

A pattern has a sign bit, eleven bits of exponent and fifty-two bits of fraction. The values of finite patterns are
exact; the nearest pattern to a number of working precision is found from its coarse value.
-/

namespace CliffordT.Double

/-- The bits of the fraction. -/
def fractionBits : Nat := 52

/-- The exponent of the smallest positive number. -/
def leastExponent : Int := -1074

/-- The largest exponent field, which marks infinities and undefined numbers. -/
def topField : Nat := 2047

/-- Whether the sign bit is set. -/
def isNegative (bits : UInt64) : Bool := twoPow 63 ≤ bits.toNat

/-- The exponent field. -/
def field (bits : UInt64) : Nat := bits.toNat / twoPow fractionBits % twoPow 11

/-- The fraction. -/
def fraction (bits : UInt64) : Nat := bits.toNat % twoPow fractionBits

/-- Whether the pattern is a finite number. -/
def isFinite (bits : UInt64) : Bool := field bits ≠ topField

/-- The absolute value of a finite pattern as a significand and an exponent of two. -/
def magnitude (bits : UInt64) : Nat × Int :=
  if field bits = 0 then (fraction bits, leastExponent)
  else (fraction bits + twoPow fractionBits, leastExponent + (field bits - 1 : Nat))

/-- The value of a finite pattern as a significand and an exponent of two. -/
def value (bits : UInt64) : Int × Int :=
  let (m, e) := magnitude bits
  (if isNegative bits then -(m : Int) else m, e)

/-- The name of a pattern that is not finite. -/
def nonFiniteName (bits : UInt64) : String :=
  if fraction bits ≠ 0 then "NaN" else if isNegative bits then "-inf" else "inf"

/-- The pattern, without its sign, nearest to a positive coarse number; beyond the range it is infinity. -/
def ofMagnitude (m : Nat) (e : Int) : Nat :=
  let top := e + m.log2
  if 1023 < top then topField * twoPow fractionBits
  else if -1022 ≤ top then
    let significand := if m.log2 ≤ fractionBits then m <<< (fractionBits - m.log2) else m >>> (m.log2 - fractionBits)
    (top + 1022).toNat * twoPow fractionBits + significand
  else if leastExponent ≤ e then m <<< (e - leastExponent).toNat
  else roundShift m (leastExponent - e).toNat

/-- The pattern nearest to a number of working precision. -/
def ofApprox {p : Nat} (x : Approx p) : UInt64 :=
  let c := x.coarsen
  if c.mant = 0 then 0
  else
    let pattern := ofMagnitude c.mant.natAbs c.exp
    UInt64.ofNat (if c.mant < 0 then twoPow 63 + pattern else pattern)

/-- The shortest decimal significand with at least `n` digits that reads back as the finite positive pattern, and the
exponent of its last digit; `k` is the exponent of the first digit. The numbers that read back lie within half a unit
of the last binary place, or a quarter below a power of two, ends included iff the significand is even. Of
two equally short ones the nearer is taken, and the upper of two equally near. -/
def shortestFrom (bits : UInt64) (k : Int) : (more n : Nat) → Nat × Int
  | 0, n => (0, k - (n - 1 : Nat))
  | more + 1, n =>
    let (m, e) := magnitude bits
    let last := k - (n - 1 : Nat)
    let (quarter, den) := Decimal.fraction 1 (e - 2) last
    let below := if fraction bits = 0 ∧ 1 < field bits then 1 else 2
    let centre := 4 * m * quarter
    let low := (4 * m - below) * quarter
    let high := (4 * m + 2) * quarter
    let inside := fun (q : Nat) =>
      if m % 2 = 0 then decide (low ≤ q * den ∧ q * den ≤ high) else decide (low < q * den ∧ q * den < high)
    let down := centre / den
    let up := down + 1
    if inside up && (!inside down || decide (up * den - centre ≤ centre - down * den)) then (up, last)
    else if inside down then (down, last)
    else shortestFrom bits k more (n + 1)

/-- The most digits that are ever needed. -/
def maxDigits : Nat := 17

/-- The text of a significand without its trailing zeros, a point behind the first digit. -/
def significandText (digits : Nat) : String :=
  let cs := (toString digits).toList
  match (cs.reverse.dropWhile (· = '0')).reverse with
  | [] => "0"
  | [c] => String.singleton c
  | c :: rest => String.ofList (c :: '.' :: rest)

/-- The text of a pattern in scientific notation, with the fewest digits that read back. -/
def text (bits : UInt64) : String :=
  let sign := if isNegative bits then "-" else ""
  if !isFinite bits then nonFiniteName bits
  else
    let (m, e) := magnitude bits
    if m = 0 then sign ++ "0e0"
    else
      let (digits, last) := shortestFrom bits (Decimal.exponent m e) maxDigits 1
      let place := last + ((toString digits).length - 1 : Nat)
      sign ++ significandText digits ++ "e" ++ toString place

end CliffordT.Double

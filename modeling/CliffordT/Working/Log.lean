import CliffordT.Number.Bits
import CliffordT.Number.Modular
import CliffordT.Working.Approx

/-!
Binary logarithms and powers to a coarse precision of 53 bits.

A logarithm is found one binary digit at a time: squaring a number between one and two doubles its logarithm, and the
digit says whether the square has passed two. A power with a fractional exponent is the product of the square
roots that belong to the binary digits of the exponent.
-/

namespace CliffordT

/-- The coarse precision. -/
def coarseBits : Nat := 53

/-- A number of coarse precision. -/
abbrev CoarseReal := Approx coarseBits

/-- The significant bits of a number that count for its coarse value. -/
def leadingBits : Nat := 60

namespace BinaryLog

/-- The bits behind the point while a logarithm is found. -/
def workBits : Nat := 192

/-- The number of binary digits of a logarithm that are found. -/
def digitCount : Nat := 160

/-- The next `count` binary digits of the logarithm of `y / 2 ^ workBits`, which lies between one and two, written behind
the digits in `acc`. -/
def digits : (count : Nat) → (y acc : Nat) → Nat
  | 0, _, acc => acc
  | count + 1, y, acc =>
    let z := (y * y) >>> workBits
    if z < 2 <<< workBits then digits count z (2 * acc) else digits count (z >>> 1) (2 * acc + 1)

/-- The logarithm of a positive number to base two. -/
def ofPositive (x : CoarseReal) : CoarseReal :=
  let n := x.mant.natAbs
  let place := bitLength n - 1
  let y := (n <<< workBits) >>> place
  let whole : Int := x.exp + place
  Approx.round coarseBits (whole * twoPow digitCount + digits digitCount y 0) (-(digitCount : Int))

/-- The logarithm of a positive natural number, of which only the leading bits are used. -/
def ofNat (n : Nat) : CoarseReal :=
  let len := bitLength n
  if len ≤ leadingBits then ofPositive (Approx.ofInt n)
  else
    let drop := len - leadingBits
    ofPositive (Approx.ofInt (n >>> drop)) + Approx.ofInt drop

/-- The logarithm of ten. -/
def ten : CoarseReal := ofNat 10

end BinaryLog

namespace Approx

variable {p : Nat}

/-- The coarse value: the leading bits, rounded. -/
def coarsen (x : Approx p) : CoarseReal :=
  let n := x.mant.natAbs
  let drop := bitLength n - leadingBits
  let lead : Int := n >>> drop
  round coarseBits (if x.mant < 0 then -lead else lead) (x.exp + drop)

/-- The logarithm of a positive number to base two. -/
def log2 (x : Approx p) : CoarseReal :=
  let (zeros, odd) := Modular.splitTwos x.mant.natAbs
  BinaryLog.ofNat odd + ofInt (x.exp + zeros)

end Approx

namespace LambdaPower

/-- The precision at which a power is found. -/
def workBits : Nat := 192

/-- The coarse value of `λ = 1 + √2`. -/
def base : CoarseReal := 1 + Approx.sqrt ⟨2, 0⟩

/-- The logarithm of the base. -/
def log2Base : CoarseReal := BinaryLog.ofPositive base

/-- The product of the roots of `root` that belong to the next `count` binary digits of the fraction `f / 2 ^ count`. -/
def fractional : (count : Nat) → (f : Nat) → (root acc : Approx workBits) → Approx workBits
  | 0, _, _, acc => acc
  | count + 1, f, root, acc =>
    let root := root.sqrt
    fractional count (f % twoPow count) root (if f < twoPow count then acc else acc * root)

/-- The power `x ^ n`, by squaring. -/
def whole (x : Approx workBits) (n : Nat) : Approx workBits :=
  if n = 0 then 1
  else
    let half := whole (x * x) (n / 2)
    if n % 2 = 1 then half * x else half
termination_by n
decreasing_by omega

/-- Exponents from this one on give powers beyond `2 ^ 1024`. -/
def exponentLimit : Int := 1024

/-- The largest exponent of two that a power may reach. -/
def rangeLimit : Int := 1024

/-- The power `λ ^ x`, absent if it is beyond the range. -/
def value? (x : CoarseReal) : Option CoarseReal :=
  let n := x.floor
  if exponentLimit ≤ n then none
  else
    let count := (-x.exp).toNat
    let f := if 0 ≤ x.exp then 0 else (x.mant - n * twoPow count).toNat
    let b := base.toPrecision workBits
    let power := if 0 ≤ n then whole b n.toNat else 1 / whole b n.natAbs
    let y := (fractional count f b power).toPrecision coarseBits
    if y.exp + bitLength y.mant.natAbs ≤ rangeLimit then some y else none

end LambdaPower

end CliffordT

import CliffordT.Number.Bits
import CliffordT.Number.Root

/-!
Real numbers of a fixed working precision.

A number is an integer times a power of two. Every operation forms its exact result, or enough of it to round
correctly, and rounds once to the given number of bits, halves to even. The exponent is unbounded, so
nothing overflows and only zero is rounded to zero. The precision is part of the type: numbers of different precision do
not mix.
-/

namespace CliffordT

/-- The natural number nearest to `n / 2 ^ s`, a half going to the even neighbour. -/
def roundShift (n s : Nat) : Nat :=
  if s = 0 then n
  else
    let q := n >>> s
    let r := n - q <<< s
    let half := 1 <<< (s - 1)
    if r < half then q
    else if r = half then q + q % 2
    else q + 1

/-- The largest integer at most `m / 2 ^ s`. -/
def floorShift (m : Int) (s : Nat) : Int := m.fdiv (twoPow s)

/-- The number `mant * 2 ^ exp`, at a precision of `p` bits. -/
structure Approx (p : Nat) where
  /-- The significand. -/
  mant : Int
  /-- The exponent of two. -/
  exp : Int
  deriving Repr, Inhabited

namespace Approx

variable {p : Nat}

/-- The number of `p` bits nearest to `m * 2 ^ e`. -/
def round (p : Nat) (m e : Int) : Approx p :=
  let n := m.natAbs
  let len := bitLength n
  if len = 0 then ⟨0, 0⟩
  else if len ≤ p then ⟨m, e⟩
  else
    let q : Int := roundShift n (len - p)
    ⟨if m < 0 then -q else q, e + (len - p : Nat)⟩

/-- An integer, rounded. -/
def ofInt (n : Int) : Approx p := round p n 0

instance : Zero (Approx p) := ⟨⟨0, 0⟩⟩
instance : One (Approx p) := ⟨⟨1, 0⟩⟩

/-- The power `2 ^ e`. -/
def powTwo (e : Int) : Approx p := ⟨1, e⟩

/-- The number with the other sign. -/
def neg (x : Approx p) : Approx p := ⟨-x.mant, x.exp⟩

instance : Neg (Approx p) := ⟨neg⟩

/-- The sum of two nonzero numbers, the first having the larger exponent. A second number too small to matter
is replaced by one of the same sign that is still too small to matter, so that shifts stay short. -/
def addOrdered (x y : Approx p) : Approx p :=
  let gap := (x.exp - y.exp).toNat
  if bitLength y.mant.natAbs + p + 2 ≤ gap then
    round p (x.mant * twoPow (p + 2) + y.mant.sign) (x.exp - (p + 2 : Nat))
  else
    round p (x.mant * twoPow gap + y.mant) y.exp

/-- The sum. -/
def add (x y : Approx p) : Approx p :=
  if x.mant = 0 then y
  else if y.mant = 0 then x
  else if y.exp ≤ x.exp then addOrdered x y
  else addOrdered y x

instance : Add (Approx p) := ⟨add⟩
instance : Sub (Approx p) := ⟨fun x y => add x (neg y)⟩

/-- The product. -/
def mul (x y : Approx p) : Approx p := round p (x.mant * y.mant) (x.exp + y.exp)

instance : Mul (Approx p) := ⟨mul⟩

/-- The quotient by a nonzero number. The integer quotient has at least `p + 2` bits, and a last bit records whether
there was a remainder. -/
def div (x y : Approx p) : Approx p :=
  let a := x.mant.natAbs
  let b := y.mant.natAbs
  let s := p + 2 + bitLength b - bitLength a
  let n := a <<< s
  let q := n / b
  let sticky : Int := 2 * q + (if n % b = 0 then 0 else 1)
  round p (if (x.mant < 0) = (y.mant < 0) then sticky else -sticky) (x.exp - y.exp - s - 1)

instance : Div (Approx p) := ⟨div⟩

/-- The square root of a nonnegative number and zero of a negative one. The integer root has at least `p + 2` bits, and
a last bit records whether it was exact. -/
def sqrt (x : Approx p) : Approx p :=
  if x.mant ≤ 0 then 0
  else
    let a := x.mant.natAbs
    let s := 2 * p + 4 - bitLength a
    let s := if (x.exp - s) % 2 = 0 then s else s + 1
    let n := a <<< s
    let r := natRoot n
    let sticky : Int := 2 * r + (if r * r = n then 0 else 1)
    round p sticky ((x.exp - s) / 2 - 1)

/-- The square root, absent for a negative number. -/
def sqrt? (x : Approx p) : Option (Approx p) := if x.mant < 0 then none else some x.sqrt

/-- The product with an integer. -/
def scale (x : Approx p) (n : Int) : Approx p := round p (x.mant * n) x.exp

/-- The quotient by a nonzero integer. -/
def divInt (x : Approx p) (n : Int) : Approx p := x.div ⟨n, 0⟩

/-- The product with a power of two. -/
def shift (x : Approx p) (e : Int) : Approx p := if x.mant = 0 then 0 else ⟨x.mant, x.exp + e⟩

/-- The sign. -/
def sign (x : Approx p) : Ordering := compare x.mant 0

/-- The order of two numbers, which is the sign of their rounded difference: rounding keeps the sign. -/
def order (x y : Approx p) : Ordering := sign (x - y)

/-- The absolute value. -/
def abs (x : Approx p) : Approx p := ⟨x.mant.natAbs, x.exp⟩

/-- The largest integer that is not above the number. -/
def floor (x : Approx p) : Int :=
  if 0 ≤ x.exp then x.mant * twoPow x.exp.toNat else floorShift x.mant (-x.exp).toNat

/-- The smallest integer that is not below the number. -/
def ceil (x : Approx p) : Int := -(-x).floor

/-- The nearest integer, halves going up. -/
def nearest (x : Approx p) : Int :=
  if 0 ≤ x.exp then x.mant * twoPow x.exp.toNat
  else
    let s := (-x.exp).toNat
    floorShift (x.mant + twoPow (s - 1)) s

/-- The quotient of two integers, each rounded first; the second is not zero. -/
def ratio (num den : Int) : Approx p := ofInt num / ofInt den

/-- The number at another precision. -/
def toPrecision (x : Approx p) (q : Nat) : Approx q := round q x.mant x.exp

end Approx

end CliffordT

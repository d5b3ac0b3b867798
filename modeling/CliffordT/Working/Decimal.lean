import CliffordT.Number.Bits

/-!
Decimal digits of the numbers `m * 2 ^ e`, in exact integer arithmetic.
-/

namespace CliffordT.Decimal

/-- Numerator and denominator of `m * 2 ^ e / 10 ^ k`. -/
def fraction (m : Nat) (e k : Int) : Nat × Nat :=
  (m * twoPow e.toNat * tenPow (-k).toNat, twoPow (-e).toNat * tenPow k.toNat)

/-- Whether `10 ^ k` is at most `m * 2 ^ e`. -/
def reaches (m : Nat) (e k : Int) : Bool :=
  let (num, den) := fraction m e k
  den ≤ num

/-- The largest of the next few exponents after `k` whose power of ten is at most `m * 2 ^ e`. -/
def climb (m : Nat) (e k : Int) : (steps : Nat) → Int
  | 0 => k
  | steps + 1 => if reaches m e (k + 1) then climb m e (k + 1) steps else k

/-- The exponent of the leading decimal digit of a positive number `m * 2 ^ e`. The binary exponent gives it up to
one or two. -/
def exponent (m : Nat) (e : Int) : Int :=
  climb m e (((m.log2 + e) * 30102999566398).fdiv (tenPow 14) - 1) 3

/-- The leading digits of a positive number as an integer of `n` digits, with a half rounded up, and the exponent
of the first digit. -/
def leading (n m : Nat) (e : Int) : Nat × Int :=
  let k := exponent m e
  let (num, den) := fraction m e (k - (n - 1 : Nat))
  let q := (2 * num + den) / (2 * den)
  if q = tenPow n then (tenPow (n - 1), k + 1) else (q, k)

end CliffordT.Decimal

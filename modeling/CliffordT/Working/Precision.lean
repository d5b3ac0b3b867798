import CliffordT.Working.Log
import CliffordT.Working.Trig

/-!
Working precisions, asked for in decimal digits and carried out in bits.

Digits and bits are counted without a bound. Both counts fit into words of 32 bits up to 1.28 · 10⁹ digits
(`Precision.bits_lt_word`); with words, a larger product by two, sum or number of bits would be cut off.
-/

namespace CliffordT

/-- A working precision in decimal digits. -/
structure Precision where
  /-- The decimal digits that are promised. -/
  digits : Nat
  deriving DecidableEq, Repr

namespace Precision

/-- No precision has fewer digits than this. -/
def minDigits : Nat := 16

/-- The precision with a number of digits, or with the fewest allowed. -/
def ofDigits (digits : Nat) : Precision := ⟨max digits minDigits⟩

/-- The binary digits of every number: those of the decimal digits, and some in hand. They fit into a word of 32 bits up to
1.28 · 10⁹ decimal digits. -/
def bits (c : Precision) : Nat :=
  (Approx.ofInt c.digits * BinaryLog.ten).ceil.toNat + Approx.guardBits

/-- The precision for a tolerance with a number of decimal digits. The number of digits is not cut off at the size of a word. -/
def forTolerance (toleranceDigits : Nat) : Precision := ofDigits (20 + 4 * toleranceDigits)

/-- The precision with more digits. Their sum is not cut off at the size of a word. -/
def widened (c : Precision) (extra : Nat) : Precision := if extra = 0 then c else ofDigits (c.digits + extra)

/-- The precision with twice the digits, which are not cut off at the size of a word. -/
def raised (c : Precision) : Precision := ofDigits (c.digits * 2)

/-- Whether two precisions compute alike. -/
def same (c d : Precision) : Bool := c.bits = d.bits

end Precision

end CliffordT

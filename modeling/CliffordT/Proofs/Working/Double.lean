import CliffordT.Working.Double
import Mathlib.Data.Rat.Defs
import Mathlib.Tactic.FieldSimp
import Mathlib.Tactic.Ring

/-!
The number that a floating-point pattern stands for.

The fields of a pattern are cut out of it by position. A pattern whose exponent field is zero is subnormal: the digit before
the point of its significand is zero, where it is one in all others, and its exponent is the least.
-/

namespace CliffordT.Double

/-- The fields of a pattern, from the highest bit to the lowest. -/
structure Fields where
  /-- The sign bit. -/
  negative : Bool
  /-- The exponent, greater by 1023 than it is meant. -/
  exponent : BitVec 11
  /-- The digits of the significand behind the point. -/
  fraction : BitVec 52

/-- The fields by their positions. -/
def fields (bits : UInt64) : Fields :=
  ⟨bits.toBitVec.msb, bits.toBitVec.extractLsb' 52 11, bits.toBitVec.extractLsb' 0 52⟩

namespace Fields

/-- The exponent is not the mark of infinities and undefined numbers. -/
def IsFinite (f : Fields) : Prop := f.exponent ≠ BitVec.allOnes 11

instance : DecidablePred IsFinite := fun f => inferInstanceAs (Decidable (f.exponent ≠ BitVec.allOnes 11))

/-- The absolute value. -/
def magnitude (f : Fields) : ℚ :=
  if f.exponent = 0 then f.fraction.toNat / 2 ^ 52 * 2 ^ (-1022 : ℤ)
  else (1 + f.fraction.toNat / 2 ^ 52) * 2 ^ ((f.exponent.toNat : ℤ) - 1023)

/-- The number. -/
def value (f : Fields) : ℚ := if f.negative then -f.magnitude else f.magnitude

end Fields

theorem isNegative_eq (bits : UInt64) : isNegative bits = (fields bits).negative := by
  change _ = bits.toBitVec.msb
  rw [BitVec.msb_eq_decide]
  rfl

theorem field_eq (bits : UInt64) : field bits = (fields bits).exponent.toNat := by
  change _ = (bits.toBitVec.extractLsb' 52 11).toNat
  rw [BitVec.extractLsb'_toNat, Nat.shiftRight_eq_div_pow]
  rfl

theorem fraction_eq (bits : UInt64) : fraction bits = (fields bits).fraction.toNat := by
  change _ = (bits.toBitVec.extractLsb' 0 52).toNat
  rw [BitVec.extractLsb'_toNat, Nat.shiftRight_zero]
  rfl

theorem isFinite_iff (bits : UInt64) : isFinite bits = true ↔ (fields bits).IsFinite := by
  rw [isFinite, decide_eq_true_eq, Fields.IsFinite, ne_eq, ne_eq, ← BitVec.toNat_inj, field_eq]
  rfl

/-- Moving the point of a significand behind its last digit. -/
theorem mul_two_zpow_sub (x : ℚ) (e : ℤ) : x * 2 ^ (e - 52) = x / 2 ^ 52 * 2 ^ e := by
  rw [zpow_sub₀ two_ne_zero, mul_div_assoc', div_mul_eq_mul_div]
  rfl

theorem magnitude_eq (bits : UInt64) :
    ((magnitude bits).1 : ℚ) * 2 ^ (magnitude bits).2 = (fields bits).magnitude := by
  have hzero : (fields bits).exponent = 0 ↔ field bits = 0 := by
    rw [field_eq, ← BitVec.toNat_inj]
    rfl
  have hleast : leastExponent = -1022 - 52 := rfl
  rw [magnitude, Fields.magnitude]
  by_cases hfield : field bits = 0
  · rw [if_pos hfield, if_pos (hzero.2 hfield), hleast, mul_two_zpow_sub, fraction_eq]
  · have hexponent : leastExponent + (field bits - 1 : ℕ) = (field bits : ℤ) - 1023 - 52 := by
      rw [hleast]
      omega
    have hone : ((twoPow fractionBits : ℕ) : ℚ) = 2 ^ 52 := Nat.cast_pow 2 52
    rw [if_neg hfield, if_neg (mt hzero.1 hfield), hexponent, mul_two_zpow_sub, Nat.cast_add, hone, add_div,
      div_self (by positivity), add_comm, fraction_eq, field_eq]

theorem value_eq (bits : UInt64) : ((value bits).1 : ℚ) * 2 ^ (value bits).2 = (fields bits).value := by
  rw [value, Fields.value, ← magnitude_eq, ← isNegative_eq]
  rcases magnitude bits with ⟨m, e⟩
  cases isNegative bits
  · simp only [Bool.false_eq_true, if_false, Int.cast_natCast]
  · simp only [if_true, Int.cast_neg, Int.cast_natCast, neg_mul]

end CliffordT.Double

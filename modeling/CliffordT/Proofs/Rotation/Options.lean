import CliffordT.Proofs.Literal.Basic
import CliffordT.Rotation.Options

/-!
The precision of a request whose digits are derived from its tolerance and its angle.
-/

namespace CliffordT

namespace Options

theorem isOpenUnit_of_validate {o : Options} (h : o.validate = .ok ()) : o.epsilon.isOpenUnit = true := by
  rw [validate] at h
  split at h
  · cases h
  · next hopen => simpa using hopen

theorem digits_precision {o : Options} (h : o.digits = none) :
    o.precision.digits = 20 + 4 * o.epsilon.fractionDigits + o.theta.magnitudeDigits := by
  rw [precision, h]
  dsimp only
  rw [Precision.digits_widened (by rw [Precision.digits_forTolerance, Precision.minDigits]; omega),
    Precision.digits_forTolerance]

/-- The digits that are derived from a tolerance are more than its square needs. -/
theorem ulp_le_sq_of_pos {o : Options} (hpos : 0 < o.epsilon.value) (hdigits : o.digits = none)
    (hfits : o.epsilon.Fits) : 1024 * ulp o.precision.bits ≤ o.epsilon.value ^ 2 := by
  have hten := BinaryLog.ten_gt
  have hlen := Literal.fractionDigits_ge hfits (Literal.num_pos_of_value_pos hpos).ne'
  have hbits := (Precision.bits_bounds o.precision).1
  have hvalue := pow_le_pow_left₀ (by positivity) (Literal.two_zpow_le_value hpos) 2
  refine le_trans ?_ hvalue
  rw [digits_precision hdigits] at hbits
  push_cast at hbits
  generalize BinaryLog.ten.toReal = t at *
  generalize o.precision.bits = p at *
  have hdigits0 : (0 : ℝ) ≤ t * o.epsilon.fractionDigits := by positivity
  have hextra0 : (0 : ℝ) ≤ t * o.theta.magnitudeDigits := by positivity
  norm_num at hbits
  have hexp : (2 : ℝ) * (bitLength o.epsilon.den - bitLength o.epsilon.num.natAbs) + 13 ≤ p := by linarith
  rw [ulp_eq, ← zpow_natCast, ← zpow_mul, show (1024 : ℝ) = 2 ^ (10 : ℤ) by norm_num, ← zpow_add₀ two_ne_zero]
  refine zpow_le_zpow_right₀ one_le_two ?_
  have : (2 : ℤ) * (bitLength o.epsilon.den - bitLength o.epsilon.num.natAbs) + 13 ≤ p := by exact_mod_cast hexp
  push_cast
  linarith

theorem ulp_le_sq {o : Options} (hopen : o.epsilon.isOpenUnit = true) (hdigits : o.digits = none)
    (hfits : o.epsilon.Fits) : 1024 * ulp o.precision.bits ≤ o.epsilon.value ^ 2 :=
  ulp_le_sq_of_pos (Literal.value_of_isOpenUnit hopen).1 hdigits hfits

end Options

end CliffordT

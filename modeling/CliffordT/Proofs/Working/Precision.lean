import CliffordT.Proofs.Working.Log
import CliffordT.Proofs.Working.Trig
import CliffordT.Working.Precision

/-!
How many binary digits a working precision has, and what twice as many decimal digits leave of an error.
-/

namespace CliffordT

namespace BinaryLog

theorem toReal_ten : ten.toReal = 7480317065143153 * 2 ^ (-51 : ℤ) := by
  have h : ten.mant = 7480317065143153 ∧ ten.exp = -51 := by decide +kernel
  rw [Approx.toReal_eq, h.1, h.2]
  norm_num

theorem ten_gt : 3.32 < ten.toReal := by
  rw [toReal_ten]
  norm_num

theorem ten_lt : ten.toReal < 3.33 := by
  rw [toReal_ten]
  norm_num

theorem ten_mul_bounds (n : ℕ) : 3.32 * n ≤ ten.toReal * n ∧ ten.toReal * n ≤ 3.33 * n :=
  ⟨mul_le_mul_of_nonneg_right ten_gt.le (Nat.cast_nonneg n), mul_le_mul_of_nonneg_right ten_lt.le (Nat.cast_nonneg n)⟩

end BinaryLog

namespace Precision

theorem abs_ofInt_mul_sub_le (n : ℕ) {t : CoarseReal} (ht : 0 < t.toReal) :
    |(Approx.ofInt n * t).toReal - n * t.toReal| ≤ 2⁻¹ ^ 50 * (n * t.toReal) := by
  have hnear := ((Approx.Near.ofInt (n : ℤ)).mul (Approx.Near.exact t)).error
  have hdrift : drift coarseBits (1 + 0 + 1) ≤ 2⁻¹ ^ 50 := by
    refine (drift_le ?_).trans ?_ <;> rw [BinaryLog.ulp_coarse] <;> norm_num
  rw [Int.cast_natCast, Nat.abs_cast, abs_of_pos ht] at hnear
  exact hnear.trans (mul_le_mul_of_nonneg_right hdrift (by positivity))

theorem ceil_bounds {x : CoarseReal} (hx : 0 ≤ x.toReal) :
    x.toReal ≤ x.ceil.toNat ∧ (x.ceil.toNat : ℝ) ≤ x.toReal + 1 := by
  have hcast : (x.ceil.toNat : ℝ) = ⌈x.toReal⌉ := by
    rw [Approx.ceil_eq, ← Int.cast_natCast, Int.toNat_of_nonneg (Int.ceil_nonneg hx)]
  rw [hcast]
  exact ⟨Int.le_ceil _, (Int.ceil_lt_add_one _).le⟩

/-- The number of bits is the number of digits times the logarithm of ten, up to one and a rounding. -/
theorem bits_bounds (c : Precision) :
    c.digits * BinaryLog.ten.toReal * (1 - 2⁻¹ ^ 50) ≤ c.bits - 32 ∧
      (c.bits : ℝ) - 32 ≤ c.digits * BinaryLog.ten.toReal * (1 + 2⁻¹ ^ 50) + 1 := by
  have hten : 0 < BinaryLog.ten.toReal := lt_trans (by norm_num) BinaryLog.ten_gt
  have hnear := abs_le.1 (abs_ofInt_mul_sub_le c.digits hten)
  rw [bits]
  generalize BinaryLog.ten = t at hten hnear ⊢
  have hexact : 0 ≤ (c.digits : ℝ) * t.toReal := by positivity
  have hpos : 0 ≤ (Approx.ofInt c.digits * t).toReal := by
    have : (2⁻¹ : ℝ) ^ 50 * (c.digits * t.toReal) ≤ 1 * (c.digits * t.toReal) :=
      mul_le_mul_of_nonneg_right (by norm_num) hexact
    linarith
  obtain ⟨hlow, hhigh⟩ := ceil_bounds hpos
  push_cast [Approx.guardBits]
  constructor <;> linarith

theorem le_bits (c : Precision) : 32 ≤ c.bits := by
  rw [bits, Approx.guardBits]
  omega

/-- Words of 32 bits hold the number of bits for all precisions up to 1.28 · 10⁹ digits. -/
theorem bits_lt_word {c : Precision} (h : c.digits ≤ 1280000000) : c.bits < 2 ^ 32 := by
  have hdigits : (c.digits : ℝ) ≤ 1280000000 := by exact_mod_cast h
  have hten := (BinaryLog.ten_mul_bounds c.digits).2
  have hproduct : (c.digits : ℝ) * BinaryLog.ten.toReal ≤ 3.33 * 1280000000 := by
    rw [mul_comm]
    linarith
  have hbits := c.bits_bounds.2.trans (add_le_add_left (mul_le_mul_of_nonneg_right hproduct (by norm_num)) 1)
  have hlt : (c.bits : ℝ) < 2 ^ 32 := by
    norm_num at hbits
    linarith
  exact_mod_cast hlt

theorem digits_ofDigits {n : ℕ} (h : minDigits ≤ n) : (ofDigits n).digits = n := max_eq_left h

theorem digits_raised {c : Precision} (h : minDigits ≤ c.digits) : c.raised.digits = c.digits * 2 :=
  digits_ofDigits (by omega)

theorem digits_widened {c : Precision} (h : minDigits ≤ c.digits) (extra : ℕ) :
    (c.widened extra).digits = c.digits + extra := by
  rw [widened]
  split
  · omega
  · exact digits_ofDigits (by omega)

theorem digits_forTolerance (n : ℕ) : (forTolerance n).digits = 20 + 4 * n :=
  digits_ofDigits (by rw [minDigits]; omega)

/-- No precision is so low that as many roundings as there are bits add up to much. -/
theorem bits_mul_ulp_le (c : Precision) : (c.bits : ℝ) * ulp c.bits ≤ 2 ^ (-26 : ℤ) := by
  obtain ⟨r, hr⟩ : ∃ r, c.bits = 32 + r := ⟨c.bits - 32, by have := c.le_bits; omega⟩
  have hulp := ulp_mul_two_pow (32 + r) 0
  have hpow : (r : ℝ) + 1 ≤ 2 ^ r := by exact_mod_cast Nat.lt_two_pow_self (n := r)
  have hbits : ((32 + r : ℕ) : ℝ) ≤ 32 * 2 ^ r := by
    push_cast
    linarith [Nat.cast_nonneg (α := ℝ) r]
  have := mul_le_mul_of_nonneg_right hbits (ulp_pos (32 + r)).le
  rw [add_zero, pow_add] at hulp
  norm_num at hulp ⊢
  rw [hr]
  linarith

/-- No precision is so low that two numerals and their square add up to much. -/
theorem drift_two_mul_bits_le (c : Precision) : drift c.bits (2 * c.bits + 15) ≤ 1 / 10 := by
  have hbits : (32 : ℝ) ≤ c.bits := by exact_mod_cast c.le_bits
  have hulp := c.bits_mul_ulp_le
  have hcount : 2 * ((2 * c.bits + 15 : ℕ) : ℝ) * ulp c.bits ≤ 1 / 10 := by
    have := mul_le_mul_of_nonneg_right (by linarith : 15 ≤ (c.bits : ℝ)) (ulp_pos c.bits).le
    push_cast
    norm_num at hulp
    linarith
  exact (drift_le (hcount.trans (by norm_num))).trans hcount

section Widened

variable {own extra : ℕ} {n : ℤ}

/-- All roundings of a sine, at a size for a number of digits and for an angle with as many binary digits before the point as the
other digits stand for. -/
theorem drift_mul_two_zpow_le {p : ℕ} {k : ℤ} (hown : 24 ≤ own) (hextra : extra ≤ 2 ^ 49) (hlarge : (own : ℝ) + 80 ≤ p)
    (hsize : (p : ℝ) ≤ 7 * (own + extra) + 34) (hk : (own : ℝ) + 49 + n - p ≤ k) :
    drift p (Approx.trigRoundings p) * 2 ^ (n + 15) ≤ 2 ^ k := by
  -- the size takes the digits of `extra`, and no more than the first `own` bits for the number of roundings
  have hpow : (p : ℝ) ≤ 2 ^ (own + 29) := by
    obtain ⟨r, hr⟩ : ∃ r, own = 24 + r := ⟨own - 24, by omega⟩
    have hr' : (own : ℝ) = 24 + r := by exact_mod_cast hr
    have hextra' : (extra : ℝ) ≤ 562949953421312 := by exact_mod_cast hextra
    have hpow : (r : ℝ) + 1 ≤ 2 ^ r := by exact_mod_cast Nat.lt_two_pow_self (n := r)
    have hr0 : (0 : ℝ) ≤ r := Nat.cast_nonneg r
    rw [hr, show 24 + r + 29 = r + 53 by ring, pow_add, show (2 : ℝ) ^ 53 = 9007199254740992 by norm_num]
    linarith
  have hdrift : drift p (Approx.trigRoundings p) ≤ 2 ^ ((own : ℤ) + 34 - p) := by
    have hcount : 2 * (Approx.trigRoundings p : ℝ) * ulp p ≤ 2 ^ ((own : ℤ) + 34 - p) := by
      rw [show (own : ℤ) + 34 - p = ((own + 29 : ℕ) : ℤ) + (4 + (1 - (p : ℤ))) by push_cast; ring,
        zpow_add₀ two_ne_zero, zpow_natCast, zpow_add₀ two_ne_zero, ← ulp_eq, ← mul_assoc]
      refine mul_le_mul_of_nonneg_right ?_ (ulp_pos p).le
      rw [Approx.trigRoundings, show (2 : ℝ) ^ (4 : ℤ) = 16 by norm_num]
      push_cast
      linarith [Nat.cast_nonneg (α := ℝ) own]
    refine (drift_le (hcount.trans ?_)).trans hcount
    have : own + 80 ≤ p := by exact_mod_cast hlarge
    exact zpow_le_one_of_nonpos₀ one_le_two (by omega)
  refine (mul_le_mul_of_nonneg_right hdrift (by positivity)).trans ?_
  rw [← zpow_add₀ two_ne_zero]
  refine zpow_le_zpow_right₀ one_le_two ?_
  have : (own : ℝ) + 34 - p + (n + 15) ≤ k := by linarith
  exact_mod_cast this

/-- The digits by which the precision has been widened make up for the size of an angle, and the others leave at least ten
bits. -/
theorem drift_sine_le {c : Precision} (hdigits : c.digits = own + extra) (hown : 24 ≤ own) (hextra : extra ≤ 2 ^ 49)
    (hn : (n : ℝ) ≤ BinaryLog.ten.toReal * extra + 24) :
    drift c.bits (Approx.trigRoundings c.bits) * 2 ^ (n + 15) ≤ 2 ^ (-10 : ℤ) := by
  obtain ⟨hlow, hhigh⟩ := bits_bounds c
  obtain ⟨hlown, hlown'⟩ := BinaryLog.ten_mul_bounds own
  obtain ⟨hlextra, hlextra'⟩ := BinaryLog.ten_mul_bounds extra
  have hown' : (24 : ℝ) ≤ own := by exact_mod_cast hown
  have hextra' : (extra : ℝ) ≤ 562949953421312 := by exact_mod_cast hextra
  have hextra0 : (0 : ℝ) ≤ extra := Nat.cast_nonneg extra
  rw [hdigits] at hlow hhigh
  push_cast at hlow hhigh
  norm_num at hlow hhigh
  refine drift_mul_two_zpow_le hown hextra ?_ ?_ ?_ <;> push_cast <;> linarith

/-- Twice the digits leave as many bits as are promised, and at least fifteen more. -/
theorem drift_raised_le {c : Precision} (hdigits : c.digits = own + extra) (hown : 24 ≤ own) (hextra : extra ≤ 2 ^ 49)
    (hn : (n : ℝ) ≤ BinaryLog.ten.toReal * extra + 24) :
    drift c.raised.bits (Approx.trigRoundings c.raised.bits) * 2 ^ (n + 15) ≤ 2 ^ (-(c.bits - 32 : ℤ)) := by
  obtain ⟨-, hbits⟩ := bits_bounds c
  obtain ⟨hlow, hhigh⟩ := bits_bounds c.raised
  obtain ⟨hlown, hlown'⟩ := BinaryLog.ten_mul_bounds own
  obtain ⟨hlextra, hlextra'⟩ := BinaryLog.ten_mul_bounds extra
  have hown' : (24 : ℝ) ≤ own := by exact_mod_cast hown
  have hextra' : (extra : ℝ) ≤ 562949953421312 := by exact_mod_cast hextra
  have hextra0 : (0 : ℝ) ≤ extra := Nat.cast_nonneg extra
  rw [digits_raised (by rw [minDigits]; omega), hdigits] at hlow hhigh
  rw [hdigits] at hbits
  push_cast at hbits hlow hhigh
  norm_num at hbits hlow hhigh
  -- of the `2 * own` digits that are left after the angle, one half is promised
  refine drift_mul_two_zpow_le hown hextra ?_ ?_ ?_ <;> push_cast <;> linarith

end Widened

end Precision

end CliffordT

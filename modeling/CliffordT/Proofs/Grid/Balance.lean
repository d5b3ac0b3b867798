import CliffordT.Proofs.Grid.Line
import CliffordT.Proofs.Number.Modular
import CliffordT.Proofs.Working.Coarse
import CliffordT.Proofs.Working.Precision
import CliffordT.Working.Precision

/-!
The power of `λ` that a piece is scaled with.

The exponent is found from coarse logarithms of two lengths. These are off by a few units, so the exponent is only known to be
about an eighth of the difference in binary digits; that is enough for a bound by the precision. A power
of the unit costs a fixed number of roundings for each factor.
-/

namespace CliffordT

namespace Approx

variable {p : ℕ}

/-- The place of the leading binary digit of a number, counted from one above the point. -/
def leadingPlace (x : Approx p) : ℤ := bitLength x.mant.natAbs + x.exp

theorem toReal_lt_leadingPlace (x : Approx p) : x.toReal < 2 ^ x.leadingPlace :=
  (le_abs_self _).trans_lt x.abs_toReal_lt

theorem two_zpow_leadingPlace_le {x : Approx p} (hx : 0 < x.toReal) : 2 ^ (x.leadingPlace - 1) ≤ x.toReal := by
  have hmant := (toReal_pos_iff x).1 hx
  have hlen := mt bitLength_eq_zero_iff.1 (by omega : x.mant.natAbs ≠ 0)
  have hlow : 2 ^ (bitLength x.mant.natAbs - 1) ≤ x.mant.natAbs := two_pow_le_of_bitLength (by omega)
  have hcast : (2 : ℝ) ^ (bitLength x.mant.natAbs - 1) ≤ x.mant := by
    rw [← abs_of_pos (by exact_mod_cast hmant : (0 : ℝ) < x.mant), ← Int.cast_abs, Int.abs_eq_natAbs]
    exact_mod_cast hlow
  rw [leadingPlace, show (bitLength x.mant.natAbs : ℤ) + x.exp - 1 = (bitLength x.mant.natAbs - 1 : ℕ) + x.exp by omega,
    zpow_add₀ two_ne_zero, zpow_natCast, toReal_eq]
  exact mul_le_mul_of_nonneg_right hcast (by positivity)

/-- The odd part of a significand is not longer than the precision. -/
theorem Fits.bitLength_odd_le {x : Approx p} (h : x.Fits) (hx : 0 < x.mant.natAbs) :
    bitLength (Modular.splitTwos x.mant.natAbs).2 ≤ p + 1 := by
  obtain ⟨hsplit, hodd⟩ := Modular.splitTwos_spec hx
  generalize Modular.splitTwos x.mant.natAbs = parts at hsplit hodd ⊢
  obtain ⟨zeros, odd⟩ := parts
  dsimp only at hsplit hodd ⊢
  rw [bitLength_le_iff]
  refine lt_of_le_of_lt ?_ (Nat.pow_lt_pow_succ (by norm_num : 1 < 2))
  obtain ⟨k, f, hk, hvalue⟩ := h
  have habs : (odd : ℝ) * 2 ^ ((zeros : ℤ) + x.exp) = (k.natAbs : ℝ) * 2 ^ f := by
    have : |x.toReal| = |(k : ℝ) * 2 ^ f| := by rw [hvalue]
    rw [toReal_eq, abs_mul, abs_mul, abs_zpow, abs_zpow, abs_two, ← Int.cast_abs, ← Int.cast_abs, Int.abs_eq_natAbs,
      Int.abs_eq_natAbs, hsplit, Int.cast_natCast, Int.cast_natCast] at this
    rw [zpow_add₀ two_ne_zero, zpow_natCast, ← this]
    push_cast
    ring
  have hk' : k.natAbs ≤ 2 ^ p := by
    rw [Int.abs_eq_natAbs] at hk
    exact_mod_cast hk
  rcases le_or_gt f ((zeros : ℤ) + x.exp) with hle | hlt
  · obtain ⟨d, hd⟩ : ∃ d : ℕ, (zeros : ℤ) + x.exp = f + d := ⟨((zeros : ℤ) + x.exp - f).toNat, by omega⟩
    rw [hd, add_comm f, zpow_add₀ two_ne_zero, zpow_natCast, ← mul_assoc, mul_left_inj' (by positivity)] at habs
    have hnat : odd * 2 ^ d = k.natAbs := by exact_mod_cast habs
    exact (Nat.le_mul_of_pos_right odd (Nat.two_pow_pos d)).trans (hnat.trans_le hk')
  · -- an odd number is no multiple of two
    obtain ⟨d, hd⟩ : ∃ d : ℕ, f = (zeros : ℤ) + x.exp + (d + 1 : ℕ) := ⟨(f - ((zeros : ℤ) + x.exp) - 1).toNat, by omega⟩
    rw [hd, add_comm (zeros + x.exp) ((d + 1 : ℕ) : ℤ), zpow_add₀ two_ne_zero ((d + 1 : ℕ) : ℤ), zpow_natCast,
      ← mul_assoc, mul_left_inj' (by positivity)] at habs
    have hnat : odd = k.natAbs * 2 ^ d * 2 := by
      rw [mul_assoc, ← pow_succ]
      exact_mod_cast habs
    omega

theorem ulp_coarse_le : ulp coarseBits ≤ 1 / 100000 := by
  rw [BinaryLog.ulp_coarse]
  norm_num

/-- A logarithm is near the place of the leading digit. -/
theorem abs_log2_sub_le {x : Approx p} (h : x.Fits) (hx : 0 < x.mant) :
    |x.log2.toReal - x.leadingPlace| ≤ 5 + (p + |(x.leadingPlace : ℝ)|) / 1000 := by
  have hpos : 0 < x.mant.natAbs := by omega
  have hlen := h.bitLength_odd_le hpos
  obtain ⟨hsplit, hodd⟩ := Modular.splitTwos_spec hpos
  have hplace : x.leadingPlace = bitLength (Modular.splitTwos x.mant.natAbs).2 +
      (x.exp + (Modular.splitTwos x.mant.natAbs).1) := by
    rw [leadingPlace]
    conv_lhs => rw [hsplit]
    rw [mul_comm (2 ^ _), bitLength_mul_two_pow (by omega)]
    push_cast
    ring
  rw [log2]
  generalize Modular.splitTwos x.mant.natAbs = parts at hlen hodd hplace ⊢
  obtain ⟨zeros, odd⟩ := parts
  dsimp only at hlen hodd hplace ⊢
  have hnat := BinaryLog.abs_ofNat_sub_le (n := odd) (by omega)
  have hint := abs_ofInt_sub_le (p := coarseBits) (x.exp + zeros)
  have hadd := abs_add_sub_le (p := coarseBits) (by decide) (BinaryLog.ofNat odd) (ofInt (x.exp + zeros))
  have hplace' : (x.leadingPlace : ℝ) = bitLength odd + ((x.exp + zeros : ℤ) : ℝ) := by
    rw [hplace]
    push_cast
    ring
  have hlen' : (bitLength odd : ℝ) ≤ p + 1 := by exact_mod_cast hlen
  have hlen0 : (0 : ℝ) ≤ bitLength odd := Nat.cast_nonneg _
  generalize ((x.exp + zeros : ℤ) : ℝ) = t at *
  generalize (BinaryLog.ofNat odd).toReal = l at *
  generalize (ofInt (x.exp + zeros) : CoarseReal).toReal = s at *
  generalize (BinaryLog.ofNat odd + ofInt (x.exp + zeros)).toReal = r at *
  generalize (bitLength odd : ℝ) = n at *
  rw [hplace']
  have ht : |t| ≤ |n + t| + n := by
    have := abs_sub (n + t) n
    rwa [add_sub_cancel_left, abs_of_nonneg hlen0] at this
  have hu := ulp_pos coarseBits
  have hu' := ulp_coarse_le
  have hn1 : ulp coarseBits * n ≤ 1 / 100000 * n := mul_le_mul_of_nonneg_right hu' hlen0
  have ht1 : ulp coarseBits * |t| ≤ 1 / 100000 * |t| := mul_le_mul_of_nonneg_right hu' (abs_nonneg t)
  have hsum : |l + s| ≤ |n + t| + (4 + 3 * (1 / 100000 * n) + 1 / 100000 * |t|) := by
    have h₁ := abs_add_le (n + t) ((l - n) + (s - t))
    have h₂ := abs_add_le (l - n) (s - t)
    rw [show n + t + (l - n + (s - t)) = l + s by ring] at h₁
    linarith
  have hs1 := mul_le_mul hu' hsum (abs_nonneg _) (by norm_num)
  have htri := abs_add_le (r - (l + s)) ((l - n) + (s - t))
  have htri' := abs_add_le (l - n) (s - t)
  rw [show r - (l + s) + (l - n + (s - t)) = r - (n + t) by ring] at htri
  have h0 := abs_nonneg (n + t)
  linarith

end Approx

namespace LambdaPower

theorem log2Base_gt : 1.27 < log2Base.toReal := by
  have h : log2Base.mant = 5726566982309366 ∧ log2Base.exp = -52 := by decide +kernel
  rw [Approx.toReal_eq, h.1, h.2]
  norm_num

end LambdaPower

namespace Coarse

/-- An integer that is moved into the range of words does not get larger. -/
theorem abs_nearestWord_le (x : CoarseReal) : |((nearestWord (.finite x) : ℤ) : ℝ)| ≤ |x.toReal| + 1 / 2 := by
  have hclamp (n : ℤ) : |max (-wordBound) (min (wordBound - 1) n)| ≤ |n| := by
    have hbound : 0 < wordBound := by decide
    have hle := le_abs_self n
    have hge := neg_abs_le n
    rw [abs_le]
    omega
  have hround {y : CoarseReal} (hy : 0 ≤ y.toReal) : |(y.nearest : ℝ)| ≤ |y.toReal| + 1 / 2 := by
    rw [Approx.nearest_eq, abs_of_nonneg hy, abs_of_nonneg (by exact_mod_cast Int.floor_nonneg.2 (by linarith))]
    exact Int.floor_le _
  have hclamp' (n : ℤ) : |((max (-wordBound) (min (wordBound - 1) n) : ℤ) : ℝ)| ≤ |(n : ℝ)| := by
    exact_mod_cast hclamp n
  rw [nearestWord]
  refine (hclamp' _).trans ?_
  split
  · next hneg =>
    have hx := (Approx.toReal_neg_iff x).2 hneg
    rw [Int.cast_neg, abs_neg, ← abs_neg x.toReal, ← Approx.toReal_neg]
    exact hround (by rw [Approx.toReal_neg]; linarith)
  · next hneg => exact hround (not_lt.1 (mt (Approx.toReal_neg_iff x).1 hneg))

end Coarse

namespace Line

variable {p : ℕ}

/-- The exponent is half the difference of the logarithms to the base `λ`, as a word. -/
theorem balance_eq {x y : Approx p} (hx : 0 < x.mant) (hy : 0 < y.mant) :
    balance x y = Coarse.nearestWord (.finite ((y.log2 - x.log2) / LambdaPower.log2Base.shift 1)) := by
  have hlog {z : Approx p} (hz : 0 < z.mant) : NumericScalar.log2 z = .finite z.log2 := by
    change Approx.logCoarse z = _
    rw [Approx.logCoarse, if_neg (by omega)]
  rw [balance, hlog hx, hlog hy]
  rfl

/-- The exponent is at most three eighths of the precision if the lengths have at most about a quarter of its digits before or
behind the point. -/
theorem abs_balance_le (hp : 64 ≤ p) {x y : Approx p} (hx : x.Fits) (hy : y.Fits) (hx0 : 0 < x.toReal)
    (hy0 : 0 < y.toReal) (hxplace : 4 * |x.leadingPlace| ≤ p + 12) (hyplace : 4 * |y.leadingPlace| ≤ p + 12) :
    8 * |balance x y| ≤ 3 * p := by
  rw [Approx.toReal_pos_iff] at hx0 hy0
  have hxlog := Approx.abs_log2_sub_le hx hx0
  have hylog := Approx.abs_log2_sub_le hy hy0
  have hxplace' : 4 * |(x.leadingPlace : ℝ)| ≤ p + 12 := by exact_mod_cast hxplace
  have hyplace' : 4 * |(y.leadingPlace : ℝ)| ≤ p + 12 := by exact_mod_cast hyplace
  have hp' : (64 : ℝ) ≤ p := by exact_mod_cast hp
  have hword := Coarse.abs_nearestWord_le ((y.log2 - x.log2) / LambdaPower.log2Base.shift 1)
  rw [← balance_eq hx0 hy0] at hword
  have hsub := Approx.abs_sub_sub_le (p := coarseBits) (by decide) y.log2 x.log2
  have hbase : 2.54 < (LambdaPower.log2Base.shift 1).toReal := by
    have := LambdaPower.log2Base_gt
    rw [Approx.toReal_shift, zpow_one]
    linarith
  have hdiv := Approx.abs_div_sub_le (p := coarseBits) (by decide) (y.log2 - x.log2)
    (y := LambdaPower.log2Base.shift 1) ((Approx.toReal_pos_iff _).1 (by linarith)).ne'
  generalize ((y.log2 - x.log2) / LambdaPower.log2Base.shift 1).toReal = q at hword hdiv
  generalize (LambdaPower.log2Base.shift 1).toReal = c at hbase hdiv
  generalize (y.log2 - x.log2).toReal = d at hsub hdiv
  generalize x.log2.toReal = l at *
  generalize y.log2.toReal = m at *
  generalize (x.leadingPlace : ℝ) = e at *
  generalize (y.leadingPlace : ℝ) = f at *
  have hu := ulp_pos coarseBits
  have hu' := Approx.ulp_coarse_le
  -- the difference of the logarithms, its rounding, and the quotient
  have hlogs : |m - l| ≤ 0.51 * p + 17 := by
    rw [abs_le] at hxlog hylog ⊢
    have he := abs_le.1 (by linarith : |e| ≤ (p + 12) / 4)
    have hf := abs_le.1 (by linarith : |f| ≤ (p + 12) / 4)
    constructor <;> linarith
  have hd : |d| ≤ 0.52 * p + 18 := by
    have htri := abs_sub_abs_le_abs_sub d (m - l)
    have := mul_le_mul hu' hlogs (abs_nonneg _) (by norm_num)
    linarith
  have hquot : |d / c| ≤ 0.21 * p + 7.1 := by
    rw [abs_div, abs_of_pos (by linarith : 0 < c), div_le_iff₀ (by linarith)]
    have := mul_le_mul_of_nonneg_left hbase.le (by positivity : 0 ≤ 0.21 * (p : ℝ) + 7.1)
    linarith
  have hq : |q| ≤ 0.22 * p + 8 := by
    have htri := abs_sub_abs_le_abs_sub q (d / c)
    have := mul_le_mul hu' hquot (abs_nonneg _) (by norm_num)
    linarith
  have : 8 * |((balance x y : ℤ) : ℝ)| ≤ 3 * p := by linarith
  exact_mod_cast this

/-! ### Powers of the unit -/

theorem one_add_root_inv : (1 + √2)⁻¹ = √2 - 1 := by
  have hsq : √2 * √2 = 2 := Real.mul_self_sqrt (by norm_num)
  exact inv_eq_of_mul_eq_one_left (by linarith)

/-- Roundings that are repeated add up to no less than their multiple. -/
theorem mul_drift_le_drift (p k n : ℕ) : n * drift p k ≤ drift p (k * n) := by
  have hpow : drift p (k * n) = (1 + drift p k) ^ n - 1 := by rw [drift, drift, pow_mul, add_sub_cancel]
  have := one_add_mul_le_pow (by linarith [drift_nonneg p k] : -2 ≤ drift p k) n
  linarith

theorem near_lambda (hp : 1 ≤ p) : Approx.Near 12 |1 + √2| (Scalar.lambda : Approx p) (1 + √2) := by
  have hone := (Approx.Near.exact (1 : Approx p)).mono (k := 1) (Nat.zero_le 1) le_rfl
  have hsum := hone.add hp (Approx.Near.rootTwo hp)
  rw [Approx.toReal_one, abs_one] at hsum
  exact hsum.mono (by norm_num) (le_abs_self _)

/-- The difference is a sixth of the sum, so its roundings count six times. -/
theorem near_lambdaInv (hp : 1 ≤ p) : Approx.Near 12 |√2 - 1| (Scalar.lambdaInv : Approx p) (√2 - 1) := by
  have hone := (Approx.Near.exact (1 : Approx p)).mono (k := 1) (Nat.zero_le 1) le_rfl
  have hdiff := (Approx.Near.rootTwo hp).sub hp hone
  rw [Approx.toReal_one, abs_one] at hdiff
  have hroot : (7 / 5 : ℝ) ≤ √2 := Real.le_sqrt_of_sq_le (by norm_num)
  refine ⟨hdiff.error.trans ?_, le_rfl⟩
  rw [abs_of_pos (by linarith : 0 < √2 - 1)]
  have hsix := mul_le_mul_of_nonneg_right (mul_drift_le_drift p 2 6) (by linarith : 0 ≤ √2 - 1)
  have hsize : drift p 2 * (√2 + 1) ≤ drift p 2 * (6 * (√2 - 1)) :=
    mul_le_mul_of_nonneg_left (by linarith) (drift_nonneg p 2)
  push_cast at hsix
  linarith

theorem near_repeat_mul {x : Approx p} {r : ℝ} {k : ℕ} (h : Approx.Near k |r| x r) (n : ℕ) :
    Approx.Near ((k + 1) * n) |r ^ n| (Nat.repeat (· * x) n 1) (r ^ n) := by
  induction n with
  | zero =>
    have := Approx.Near.exact (1 : Approx p)
    rwa [Approx.toReal_one] at this
  | succ n ih =>
    have := ih.mul h
    rw [← abs_mul, ← pow_succ] at this
    exact this.mono (by ring_nf; omega) le_rfl

/-- Both computed powers are near the exact ones. -/
theorem near_lambdaPowers (hp : 1 ≤ p) (n : ℤ) :
    Approx.Near (13 * n.natAbs) |(1 + √2) ^ n| (lambdaPowers n : Approx p × Approx p).1 ((1 + √2) ^ n) ∧
      Approx.Near (13 * n.natAbs) |(1 - √2) ^ n| (lambdaPowers n : Approx p × Approx p).2 ((1 - √2) ^ n) := by
  rw [lambdaPowers]
  dsimp only
  rcases le_or_gt 0 n with hn | hn
  · obtain ⟨m, rfl⟩ := Int.eq_ofNat_of_zero_le hn
    rw [if_pos hn, if_pos hn, Int.natAbs_natCast, zpow_natCast, zpow_natCast]
    refine ⟨near_repeat_mul (near_lambda hp) m, near_repeat_mul ?_ m⟩
    rw [← neg_sub √2 1, abs_neg]
    exact (near_lambdaInv hp).neg
  · obtain ⟨m, rfl⟩ : ∃ m : ℕ, n = -(m : ℤ) := ⟨n.natAbs, by omega⟩
    have hinv : (1 - √2)⁻¹ = -(1 + √2) := by rw [← neg_sub √2 1, ← one_add_root_inv, inv_neg, inv_inv]
    rw [if_neg (not_le.2 hn), if_neg (not_le.2 hn), Int.natAbs_neg, Int.natAbs_natCast, zpow_neg, zpow_neg,
      zpow_natCast, zpow_natCast, ← inv_pow, ← inv_pow, one_add_root_inv, hinv]
    refine ⟨near_repeat_mul (near_lambdaInv hp) m, near_repeat_mul ?_ m⟩
    rw [abs_neg]
    exact (near_lambda hp).neg

end Line

end CliffordT

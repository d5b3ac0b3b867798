import CliffordT.Proofs.Working.Drift
import CliffordT.Working.Log

/-!
The coarse logarithm of a natural number is near its number of binary digits.

The digits behind the point are all between zero and one whatever they are, and the part before the point is
the place of the leading digit, so nothing has to be known about the digits for a bound that is off by a few units.
-/

namespace CliffordT

namespace BinaryLog

/-- The digits that are found stand behind those that were there. -/
theorem digits_bounds (count y acc : ℕ) :
    acc * 2 ^ count ≤ digits count y acc ∧ digits count y acc < (acc + 1) * 2 ^ count := by
  induction count generalizing y acc with
  | zero => simp [digits]
  | succ count ih =>
    have hpos := Nat.two_pow_pos count
    rw [digits]
    split
    · obtain ⟨hlow, hhigh⟩ := ih ((y * y) >>> workBits) (2 * acc)
      rw [pow_succ]
      constructor <;> nlinarith
    · obtain ⟨hlow, hhigh⟩ := ih ((y * y) >>> workBits >>> 1) (2 * acc + 1)
      rw [pow_succ]
      constructor <;> nlinarith

/-- The place of the leading digit of the value. -/
def place (x : CoarseReal) : ℤ := x.exp + (bitLength x.mant.natAbs - 1 : ℕ)

theorem two_zpow_place_le {x : CoarseReal} (hx : 0 < x.mant) : (2 : ℝ) ^ place x ≤ x.toReal := by
  have hlow : 2 ^ (bitLength x.mant.natAbs - 1) ≤ x.mant.natAbs :=
    two_pow_le_of_bitLength (by have := mt bitLength_eq_zero_iff.1 (by omega : x.mant.natAbs ≠ 0); omega)
  have hcast : (2 : ℝ) ^ (bitLength x.mant.natAbs - 1) ≤ x.mant := by
    rw [← abs_of_pos (by exact_mod_cast hx : (0 : ℝ) < x.mant), ← Int.cast_abs, Int.abs_eq_natAbs]
    exact_mod_cast hlow
  rw [place, add_comm, zpow_add₀ two_ne_zero, zpow_natCast, Approx.toReal_eq]
  exact mul_le_mul_of_nonneg_right hcast (by positivity)

theorem lt_two_zpow_place_add_one (x : CoarseReal) : x.toReal < (2 : ℝ) ^ (place x + 1) := by
  have hhigh : x.mant.natAbs < 2 ^ (bitLength x.mant.natAbs - 1 + 1) :=
    (lt_two_pow_bitLength _).trans_le (Nat.pow_le_pow_right (by norm_num) (by omega))
  have hcast : (x.mant : ℝ) < 2 ^ (bitLength x.mant.natAbs - 1 + 1) := by
    refine (le_abs_self _).trans_lt ?_
    rw [← Int.cast_abs, Int.abs_eq_natAbs]
    exact_mod_cast hhigh
  rw [place, show x.exp + ((bitLength x.mant.natAbs - 1 : ℕ) : ℤ) + 1 =
      ((bitLength x.mant.natAbs - 1 + 1 : ℕ) : ℤ) + x.exp by push_cast; ring, zpow_add₀ two_ne_zero, zpow_natCast,
    Approx.toReal_eq]
  exact mul_lt_mul_of_pos_right hcast (by positivity)

/-- The logarithm is the place of the leading digit and a fraction, rounded. -/
theorem exists_fraction (x : CoarseReal) : ∃ f : ℝ, 0 ≤ f ∧ f < 1 ∧
    |(ofPositive x).toReal - (place x + f)| ≤ ulp coarseBits * |place x + f| := by
  obtain ⟨hlow, hhigh⟩ := digits_bounds digitCount ((x.mant.natAbs <<< workBits) >>> (bitLength x.mant.natAbs - 1)) 0
  set found := digits digitCount ((x.mant.natAbs <<< workBits) >>> (bitLength x.mant.natAbs - 1)) 0 with hfound
  have hpow : (0 : ℝ) < 2 ^ digitCount := by positivity
  refine ⟨found / 2 ^ digitCount, by positivity, ?_, ?_⟩
  · rw [div_lt_one hpow]
    rw [zero_add, one_mul] at hhigh
    exact_mod_cast hhigh
  · have hround := Approx.abs_toReal_round_sub_le (p := coarseBits) (place x * twoPow digitCount + found)
      (-(digitCount : ℤ))
    have hvalue : ((place x * twoPow digitCount + found : ℤ) : ℝ) * 2 ^ (-(digitCount : ℤ)) =
        place x + found / 2 ^ digitCount := by
      rw [twoPow_eq, zpow_neg, zpow_natCast, ← div_eq_mul_inv]
      push_cast
      rw [add_div, mul_div_cancel_right₀ _ hpow.ne']
    rwa [hvalue] at hround

theorem ulp_coarse : ulp coarseBits = 2⁻¹ ^ 52 := by
  rw [ulp_eq, coarseBits, show (1 : ℤ) - (53 : ℕ) = -(52 : ℕ) by norm_num, zpow_neg, zpow_natCast, inv_pow]

/-- Up to sixty digits, rounding moves the leading digit by less than two places. -/
theorem abs_ofPositive_ofInt_sub_le {n : ℕ} (hn : 0 < n) (hlen : bitLength n ≤ leadingBits) :
    |(ofPositive (Approx.ofInt n)).toReal - bitLength n| ≤ 3 := by
  obtain ⟨f, hf0, hf1, hround⟩ := exists_fraction (Approx.ofInt n)
  have hulp : ulp coarseBits ≤ 1 / 100 := by
    rw [ulp_coarse]
    norm_num
  have herror := Approx.abs_ofInt_sub_le (p := coarseBits) n
  rw [Int.cast_natCast, Nat.abs_cast, abs_le] at herror
  have hn' : (0 : ℝ) < n := by exact_mod_cast hn
  have hsmall : ulp coarseBits * n ≤ 1 / 100 * n := mul_le_mul_of_nonneg_right hulp hn'.le
  have hpos : 0 < (Approx.ofInt n : CoarseReal).mant :=
    (Approx.toReal_pos_iff _).1 (by linarith)
  have hleading : (2 : ℝ) ^ ((bitLength n : ℤ) - 2) < 2 ^ (place (Approx.ofInt n) + 1) := by
    refine lt_of_le_of_lt ?_ (lt_two_zpow_place_add_one _)
    have hlow : (2 : ℝ) ^ (bitLength n - 1) ≤ n := by
      exact_mod_cast two_pow_le_of_bitLength (by have := mt bitLength_eq_zero_iff.1 hn.ne'; omega)
    have hshift : (2 : ℝ) ^ ((bitLength n : ℤ) - 2) = 2 ^ (bitLength n - 1) / 2 := by
      have := mt bitLength_eq_zero_iff.1 hn.ne'
      rw [← zpow_natCast, show ((bitLength n - 1 : ℕ) : ℤ) = (bitLength n : ℤ) - 2 + 1 by omega,
        zpow_add_one₀ two_ne_zero, mul_div_cancel_right₀ _ two_ne_zero]
    linarith
  have hplace : (2 : ℝ) ^ place (Approx.ofInt n) < 2 ^ ((bitLength n : ℤ) + 1) := by
    refine lt_of_le_of_lt (two_zpow_place_le hpos) ?_
    have hhigh : (n : ℝ) < 2 ^ bitLength n := by exact_mod_cast lt_two_pow_bitLength n
    rw [zpow_add_one₀ two_ne_zero, zpow_natCast]
    linarith
  rw [zpow_lt_zpow_iff_right₀ one_lt_two] at hleading hplace
  have hlow : ((bitLength n : ℤ) : ℝ) - 2 ≤ place (Approx.ofInt n) := by
    exact_mod_cast (by omega : (bitLength n : ℤ) - 2 ≤ place (Approx.ofInt n))
  have hhigh : (place (Approx.ofInt n) : ℝ) ≤ (bitLength n : ℤ) := by
    exact_mod_cast (by omega : place (Approx.ofInt n) ≤ bitLength n)
  have hlen' : ((bitLength n : ℤ) : ℝ) ≤ 60 := by exact_mod_cast hlen
  have hlen0 : (0 : ℝ) ≤ ((bitLength n : ℤ) : ℝ) := by exact_mod_cast Nat.zero_le _
  have habs : |(place (Approx.ofInt n) : ℝ) + f| ≤ 61 := abs_le.2 ⟨by linarith, by linarith⟩
  have := hround.trans (mul_le_mul hulp habs (abs_nonneg _) (by norm_num))
  rw [← Int.cast_natCast (bitLength n), abs_le]
  rw [abs_le] at this
  constructor <;> linarith

theorem bitLength_shiftRight {n drop : ℕ} (h : drop ≤ bitLength n) : bitLength (n >>> drop) = bitLength n - drop := by
  rw [Nat.shiftRight_eq_div_pow]
  refine le_antisymm (bitLength_le_iff.2 ?_) ?_
  · refine Nat.div_lt_of_lt_mul ?_
    rw [← pow_add, Nat.add_sub_cancel' h]
    exact lt_two_pow_bitLength n
  · by_contra hlt
    rw [not_le] at hlt
    have hsmall := (lt_two_pow_bitLength (n / 2 ^ drop)).trans_le
      (Nat.pow_le_pow_right (by norm_num) (by omega : _ ≤ bitLength n - drop - 1))
    rw [Nat.div_lt_iff_lt_mul (Nat.two_pow_pos drop), ← pow_add] at hsmall
    have := two_pow_le_of_bitLength (n := n) (k := bitLength n - 1) (by omega)
    rw [show bitLength n - drop - 1 + drop = bitLength n - 1 by omega] at hsmall
    omega

/-- A coarse logarithm is off by a few units and by its own roundings. -/
theorem abs_ofNat_sub_le {n : ℕ} (hn : 0 < n) :
    |(ofNat n).toReal - bitLength n| ≤ 4 + 3 * ulp coarseBits * bitLength n := by
  have hpos := ulp_pos coarseBits
  rw [ofNat]
  dsimp only
  split
  · next hlen =>
    refine (abs_ofPositive_ofInt_sub_le hn hlen).trans ?_
    have : 0 ≤ 3 * ulp coarseBits * bitLength n := by positivity
    linarith
  · next hlen =>
    have hdrop : bitLength (n >>> (bitLength n - leadingBits)) = leadingBits := by
      rw [bitLength_shiftRight (by omega)]
      omega
    have hlead := abs_ofPositive_ofInt_sub_le (n := n >>> (bitLength n - leadingBits))
      (Nat.pos_of_ne_zero fun h0 => by rw [h0] at hdrop; exact absurd hdrop (by decide)) hdrop.le
    rw [hdrop] at hlead
    set lead := ofPositive (Approx.ofInt (n >>> (bitLength n - leadingBits) : ℕ)) with hleaddef
    obtain ⟨drop, hdropdef⟩ : ∃ drop, bitLength n - leadingBits = drop := ⟨_, rfl⟩
    have hlen' : (bitLength n : ℝ) = drop + 60 := by
      have : bitLength n = drop + 60 := by rw [← hdropdef, leadingBits]; simp only [leadingBits] at hlen; omega
      exact_mod_cast this
    have hint := Approx.abs_ofInt_sub_le (p := coarseBits) (drop : ℤ)
    rw [Int.cast_natCast, Nat.abs_cast] at hint
    have hadd := Approx.abs_add_sub_le (p := coarseBits) (by decide) lead (Approx.ofInt (drop : ℤ))
    have hsum : |lead.toReal + (Approx.ofInt (drop : ℤ) : CoarseReal).toReal| ≤ 2 * (drop + 60) := by
      have : ulp coarseBits * drop ≤ 1 * drop :=
        mul_le_mul_of_nonneg_right (by rw [ulp_coarse]; norm_num) (Nat.cast_nonneg drop)
      rw [show ((leadingBits : ℕ) : ℝ) = 60 by norm_num [leadingBits], abs_le] at hlead
      rw [abs_le] at hint ⊢
      constructor <;> linarith [Nat.cast_nonneg (α := ℝ) drop]
    have := mul_le_mul_of_nonneg_left hsum hpos.le
    rw [hdropdef, hlen']
    rw [show ((leadingBits : ℕ) : ℝ) = 60 by norm_num [leadingBits], abs_le] at hlead
    rw [abs_le] at hint hadd ⊢
    constructor <;> linarith
end BinaryLog

end CliffordT

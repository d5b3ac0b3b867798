import CliffordT.Literal.Basic
import CliffordT.Proofs.Working.Precision
import CliffordT.Working.Instances

/-!
The real number that a literal stands for: how near it is computed, and how its size shows in its numerals.
-/

namespace CliffordT

namespace Literal

/-- The number that is written. -/
noncomputable def value (l : Literal) : ℝ := (l.num : ℝ) / l.den * if l.timesPi then Real.pi else 1

/-- A literal whose numerals have no more binary digits than there are bits in the memory that one process can
address. -/
structure Fits (l : Literal) : Prop where
  num : bitLength l.num.natAbs ≤ 2 ^ 50
  den : bitLength l.den ≤ 2 ^ 50

theorem eval_near {p : ℕ} (hp : 3 ≤ p) (l : Literal) : Approx.Near (p + 7) |l.value| (l.eval : Approx p) l.value := by
  have hden : (0 : ℝ) < l.den := by exact_mod_cast l.den_pos
  have hulp : ulp p ≤ 1 / 2 := ulp_le_half (by omega)
  have hquotient := (Approx.Near.ofInt (p := p) l.num).div (by omega) (Approx.Near.ofInt (l.den : ℤ))
    (by exact_mod_cast hden.ne') (by rwa [drift_one])
  rw [← abs_div, Int.cast_natCast] at hquotient
  rw [eval, value]
  split
  · rw [abs_mul, abs_of_pos Real.pi_pos]
    exact (hquotient.mul Approx.Near.pi).mono (by omega) le_rfl
  · rw [mul_one]
    exact hquotient.mono (by omega) le_rfl

theorem natAbs_lt (l : Literal) : |(l.num : ℝ)| < 2 ^ bitLength l.num.natAbs := by
  rw [← Int.cast_abs, Int.abs_eq_natAbs]
  exact_mod_cast lt_two_pow_bitLength l.num.natAbs

theorem bitLength_den_pos (l : Literal) : 0 < bitLength l.den :=
  Nat.pos_of_ne_zero (mt bitLength_eq_zero_iff.1 l.den_pos.ne')

theorem abs_value_le (l : Literal) :
    |l.value| ≤ 2 ^ ((bitLength l.num.natAbs : ℤ) - bitLength l.den + 3) := by
  have hden : (2 : ℝ) ^ (bitLength l.den - 1) ≤ l.den := by
    exact_mod_cast two_pow_le_of_bitLength (by have := l.bitLength_den_pos; omega : bitLength l.den - 1 < _)
  have hfactor : |if l.timesPi then Real.pi else 1| ≤ 4 := by
    split
    · rw [abs_of_pos Real.pi_pos]
      exact Real.pi_le_four
    · norm_num
  rw [value, abs_mul, abs_div, Nat.abs_cast]
  calc |(l.num : ℝ)| / l.den * |if l.timesPi then Real.pi else 1|
      ≤ 2 ^ bitLength l.num.natAbs / 2 ^ (bitLength l.den - 1) * 4 :=
        mul_le_mul (div_le_div₀ (by positivity) l.natAbs_lt.le (by positivity) hden) hfactor (abs_nonneg _) (by positivity)
    _ = 2 ^ ((bitLength l.num.natAbs : ℤ) - bitLength l.den + 3) := by
        have := l.bitLength_den_pos
        rw [show (bitLength l.num.natAbs : ℤ) - bitLength l.den + 3 =
          (bitLength l.num.natAbs : ℤ) - ((bitLength l.den - 1 : ℕ) : ℤ) + 2 by omega, zpow_add₀ two_ne_zero,
          zpow_sub₀ two_ne_zero, zpow_natCast, zpow_natCast]
        norm_num

theorem logSlack_bounds : 0 ≤ logSlack.toReal ∧ logSlack.toReal ≤ 1 := by
  have h : logSlack.mant = 4835703278458517 ∧ logSlack.exp = -82 := by decide +kernel
  rw [Approx.toReal_eq, h.1, h.2]
  norm_num

theorem abs_ofNat_sub_le_five {n : ℕ} (hn : 0 < n) (hlen : bitLength n ≤ 2 ^ 50) :
    |(BinaryLog.ofNat n).toReal - bitLength n| ≤ 5 := by
  have hlen' : (bitLength n : ℝ) ≤ 1125899906842624 := by exact_mod_cast hlen
  have := BinaryLog.abs_ofNat_sub_le hn
  rw [BinaryLog.ulp_coarse] at this
  norm_num at this
  linarith

/-- The decimal logarithm is a difference of two binary ones over the logarithm of ten, up to five. -/
theorem abs_negLogTen_sub_le {l : Literal} (hl : l.Fits) {x : CoarseReal} (h : l.negLogTen? = some x) :
    |x.toReal - ((bitLength l.den : ℝ) - bitLength l.num.natAbs) / BinaryLog.ten.toReal| ≤ 5 := by
  rw [negLogTen?] at h
  split at h
  · cases h
  · next hnum =>
    have hd := abs_ofNat_sub_le_five l.den_pos hl.den
    have hn := abs_ofNat_sub_le_five (by omega : 0 < l.num.natAbs) hl.num
    have hdlen : (bitLength l.den : ℝ) ≤ 1125899906842624 := by exact_mod_cast hl.den
    have hnlen : (bitLength l.num.natAbs : ℝ) ≤ 1125899906842624 := by exact_mod_cast hl.num
    have hten := BinaryLog.ten_gt
    -- Both logarithms are off by five. A coarse number of that size has a unit below one in its last place, so the
    -- difference is off by eleven, and the quotient by a third of that and one more rounding.
    cases h
    generalize BinaryLog.ofNat l.den = a at hd ⊢
    generalize BinaryLog.ofNat l.num.natAbs = b at hn ⊢
    generalize BinaryLog.ten = t at hten ⊢
    have ht : t.mant ≠ 0 := fun h0 => by
      have := (Approx.toReal_eq_zero_iff t).2 h0
      linarith
    have hulp : ulp coarseBits = 1 / 4503599627370496 := by
      rw [BinaryLog.ulp_coarse]
      norm_num
    have hsub := Approx.abs_sub_sub_le (p := coarseBits) (by decide) a b
    have hdiv := Approx.abs_div_sub_le (p := coarseBits) (by decide) (a - b) ht
    rw [hulp] at hsub hdiv
    have hsize : |a.toReal - b.toReal| ≤ 1125899906842634 := by
      rw [abs_le] at hd hn ⊢
      have := Nat.cast_nonneg (α := ℝ) (bitLength l.den)
      have := Nat.cast_nonneg (α := ℝ) (bitLength l.num.natAbs)
      constructor <;> linarith
    have hdiff : |(a - b).toReal - ((bitLength l.den : ℝ) - bitLength l.num.natAbs)| ≤ 11 := by
      rw [abs_le] at hd hn hsub ⊢
      constructor <;> linarith
    have hquot : |(a - b).toReal / t.toReal| ≤ 1125899906842634 := by
      rw [abs_div, abs_of_pos (by linarith : 0 < t.toReal), div_le_iff₀ (by linarith)]
      linarith [abs_sub_abs_le_abs_sub (a - b).toReal (a.toReal - b.toReal)]
    have hshift : |(a - b).toReal / t.toReal - ((bitLength l.den : ℝ) - bitLength l.num.natAbs) / t.toReal| ≤ 4 := by
      rw [← sub_div, abs_div, abs_of_pos (by linarith : 0 < t.toReal), div_le_iff₀ (by linarith)]
      linarith
    rw [abs_le] at hdiv hshift ⊢
    constructor <;> linarith

/-- The lengths of numerals that fit differ by less than this many decimal digits. -/
theorem abs_digits_le {l : Literal} (hl : l.Fits) :
    |((bitLength l.den : ℝ) - bitLength l.num.natAbs) / BinaryLog.ten.toReal| ≤ 339126478000000 := by
  have hten := BinaryLog.ten_gt
  have hnlen : (bitLength l.num.natAbs : ℝ) ≤ 1125899906842624 := by exact_mod_cast hl.num
  have hdlen : (bitLength l.den : ℝ) ≤ 1125899906842624 := by exact_mod_cast hl.den
  have := Nat.cast_nonneg (α := ℝ) (bitLength l.den)
  have := Nat.cast_nonneg (α := ℝ) (bitLength l.num.natAbs)
  have hdiff : |(bitLength l.den : ℝ) - bitLength l.num.natAbs| ≤ 1125899906842624 :=
    abs_le.2 ⟨by linarith, by linarith⟩
  rw [abs_div, abs_of_pos (by linarith : 0 < BinaryLog.ten.toReal), div_le_iff₀ (by linarith)]
  linarith

theorem abs_sub_logSlack_sub_le {x : CoarseReal} {w : ℝ} (h : |x.toReal - w| ≤ 5) (hw : |w| ≤ 339126478000000) :
    |(x - logSlack).toReal - w| ≤ 7 := by
  obtain ⟨hs0, hs1⟩ := logSlack_bounds
  have hsub := Approx.abs_sub_sub_le (p := coarseBits) (by decide) x logSlack
  have hulp : ulp coarseBits = 1 / 4503599627370496 := by
    rw [BinaryLog.ulp_coarse]
    norm_num
  generalize logSlack = slack at *
  rw [hulp] at hsub
  rw [abs_le] at h hw
  have hsize : |x.toReal - slack.toReal| ≤ 4503599627370496 := abs_le.2 ⟨by linarith, by linarith⟩
  rw [abs_le] at hsub ⊢
  constructor <;> linarith

/-- The digits before the point tell how long the numerator is beyond the denominator. -/
theorem magnitudeDigits_bounds {l : Literal} (hl : l.Fits) (hnum : l.num ≠ 0) :
    (bitLength l.num.natAbs : ℝ) - bitLength l.den ≤ BinaryLog.ten.toReal * l.magnitudeDigits + 24 ∧
      l.magnitudeDigits ≤ 2 ^ 49 := by
  have hten := BinaryLog.ten_gt
  have hten' := BinaryLog.ten_lt
  obtain ⟨x, hx⟩ : ∃ x, l.negLogTen? = some x := by simp [negLogTen?, hnum]
  have hlog := abs_negLogTen_sub_le hl hx
  have hwsize := abs_digits_le hl
  rw [magnitudeDigits, hx]
  dsimp only
  generalize BinaryLog.ten.toReal = t at *
  obtain ⟨w, hw⟩ : ∃ w, ((bitLength l.den : ℝ) - bitLength l.num.natAbs) / t = w := ⟨_, rfl⟩
  have hwt : (bitLength l.den : ℝ) - bitLength l.num.natAbs = w * t := by
    rw [← hw, div_mul_cancel₀ _ (by linarith)]
  rw [hw] at hlog hwsize
  have hsize := abs_sub_logSlack_sub_le (x := -x) (w := -w)
    (by rwa [Approx.toReal_neg, neg_sub_neg, abs_sub_comm]) (by rwa [abs_neg])
  generalize -x - logSlack = size at hsize ⊢
  rw [abs_le] at hsize hwsize
  obtain ⟨extra, hextra, hextra1⟩ : ∃ extra, (if l.timesPi then 1 else 0) = extra ∧ extra ≤ 1 :=
    ⟨_, rfl, by split <;> omega⟩
  rw [hextra]
  split
  · next hpos =>
    have hpos' := (Approx.toReal_pos_iff size).2 hpos
    obtain ⟨hlow, hhigh⟩ := Precision.ceil_bounds hpos'.le
    constructor
    · have hprod : -w * t ≤ (size.ceil.toNat + extra + 7 : ℝ) * t :=
        mul_le_mul_of_nonneg_right (by linarith [Nat.cast_nonneg (α := ℝ) extra]) (by linarith)
      push_cast
      linarith
    · have : (size.ceil.toNat : ℝ) + extra ≤ 562949953421312 := by
        have : (extra : ℝ) ≤ 1 := by exact_mod_cast hextra1
        linarith
      exact_mod_cast this
  · next hpos =>
    have hpos' : size.toReal ≤ 0 := not_lt.1 fun h => hpos ((Approx.toReal_pos_iff size).1 h)
    refine ⟨?_, by omega⟩
    have hprod : -w * t ≤ 7 * t := mul_le_mul_of_nonneg_right (by linarith) (by linarith)
    have : 0 ≤ t * extra := mul_nonneg (by linarith) (Nat.cast_nonneg extra)
    linarith

theorem one_le_fractionDigits (l : Literal) : 1 ≤ l.fractionDigits := by
  rw [fractionDigits]
  split
  · exact le_rfl
  · exact le_max_left _ _

/-- The digits behind the point tell how long the denominator is beyond the numerator. -/
theorem fractionDigits_ge {l : Literal} (hl : l.Fits) (hnum : l.num ≠ 0) :
    (bitLength l.den : ℝ) - bitLength l.num.natAbs ≤ BinaryLog.ten.toReal * l.fractionDigits + 24 := by
  have hten := BinaryLog.ten_gt
  have hten' := BinaryLog.ten_lt
  obtain ⟨x, hx⟩ : ∃ x, l.negLogTen? = some x := by simp [negLogTen?, hnum]
  have hsize := abs_le.1 (abs_sub_logSlack_sub_le (abs_negLogTen_sub_le hl hx) (abs_digits_le hl))
  have hceil : (x - logSlack).toReal ≤ l.fractionDigits := by
    rw [fractionDigits, hx]
    dsimp only
    generalize x - logSlack = size
    have hle : (size.ceil : ℝ) ≤ (max 1 size.ceil.toNat : ℕ) := by
      exact_mod_cast (Int.self_le_toNat _).trans (by exact_mod_cast le_max_right 1 size.ceil.toNat)
    rw [Approx.ceil_eq] at hle ⊢
    exact (Int.le_ceil _).trans hle
  generalize BinaryLog.ten.toReal = t at *
  have hquot : ((bitLength l.den : ℝ) - bitLength l.num.natAbs) / t ≤ l.fractionDigits + 7 := by linarith
  rw [div_le_iff₀ (by linarith)] at hquot
  linarith

/-- The size of a number in binary digits before the point, which its decimal digits make up for. -/
theorem exists_size {l : Literal} (hl : l.Fits) : ∃ n : ℤ,
    (n : ℝ) ≤ BinaryLog.ten.toReal * l.magnitudeDigits + 24 ∧ 16 * |l.value| + 405 ≤ 2 ^ (n + 15) ∧
      l.magnitudeDigits ≤ 2 ^ 49 := by
  have hten : 0 < BinaryLog.ten.toReal := lt_trans (by norm_num) BinaryLog.ten_gt
  have hzero : (0 : ℝ) ≤ BinaryLog.ten.toReal * l.magnitudeDigits + 24 := by positivity
  have hbound : ∀ n : ℤ, 0 ≤ n → |l.value| ≤ 2 ^ (n + 3) → 16 * |l.value| + 405 ≤ 2 ^ (n + 15) := fun n hn h => by
    have hpow : (1 : ℝ) ≤ 2 ^ n := one_le_zpow₀ one_le_two hn
    rw [zpow_add₀ two_ne_zero] at h ⊢
    norm_num at h ⊢
    linarith
  by_cases hnum : l.num = 0
  · refine ⟨0, by exact_mod_cast hzero, hbound 0 le_rfl ?_, ?_⟩
    · rw [value, hnum, Int.cast_zero, zero_div, zero_mul, abs_zero]
      positivity
    · simp only [magnitudeDigits, negLogTen?, hnum, if_true]
      split <;> norm_num
  · obtain ⟨hsize, hle⟩ := magnitudeDigits_bounds hl hnum
    refine ⟨max ((bitLength l.num.natAbs : ℤ) - bitLength l.den) 0, ?_, hbound _ (le_max_right _ _) ?_, hle⟩
    · push_cast
      exact max_le hsize hzero
    · refine l.abs_value_le.trans (zpow_le_zpow_right₀ one_le_two ?_)
      have := le_max_left ((bitLength l.num.natAbs : ℤ) - bitLength l.den) 0
      omega

theorem value_of_isOpenUnit {l : Literal} (h : l.isOpenUnit = true) : 0 < l.value ∧ l.value < 1 := by
  simp only [isOpenUnit, Bool.and_eq_true, Bool.not_eq_true', decide_eq_true_eq] at h
  obtain ⟨⟨hpi, hpos⟩, hlt⟩ := h
  have hden : (0 : ℝ) < l.den := by exact_mod_cast l.den_pos
  rw [value, hpi, if_neg Bool.false_ne_true, mul_one]
  exact ⟨div_pos (by exact_mod_cast hpos) hden, (div_lt_one hden).2 (by exact_mod_cast hlt)⟩

theorem num_pos_of_value_pos {l : Literal} (h : 0 < l.value) : 0 < l.num := by
  have hden : (0 : ℝ) < l.den := by exact_mod_cast l.den_pos
  have hfactor : (0 : ℝ) < if l.timesPi then Real.pi else 1 := by
    split
    · exact Real.pi_pos
    · exact one_pos
  rw [value, mul_pos_iff_of_pos_right hfactor, div_pos_iff_of_pos_right hden] at h
  exact_mod_cast h

/-- A positive number is not below what the lengths of its numerals tell. -/
theorem two_zpow_le_value {l : Literal} (h : 0 < l.value) :
    2 ^ ((bitLength l.num.natAbs : ℤ) - bitLength l.den - 1) ≤ l.value := by
  have hpos := num_pos_of_value_pos h
  have hlen : 0 < bitLength l.num.natAbs := Nat.pos_of_ne_zero fun h0 => by
    rw [bitLength_eq_zero_iff] at h0
    omega
  have hnum : (2 : ℝ) ^ (bitLength l.num.natAbs - 1) ≤ l.num := by
    have hle := two_pow_le_of_bitLength (by omega : bitLength l.num.natAbs - 1 < bitLength l.num.natAbs)
    have hcast : ((2 ^ (bitLength l.num.natAbs - 1) : ℕ) : ℤ) ≤ l.num := by omega
    exact_mod_cast hcast
  have hden : (l.den : ℝ) ≤ 2 ^ bitLength l.den := by exact_mod_cast (lt_two_pow_bitLength l.den).le
  have hden0 : (0 : ℝ) < l.den := by exact_mod_cast l.den_pos
  have hnum0 : (0 : ℝ) ≤ l.num := by exact_mod_cast hpos.le
  have hfactor : (1 : ℝ) ≤ if l.timesPi then Real.pi else 1 := by
    split
    · linarith [Real.pi_gt_three]
    · exact le_rfl
  calc (2 : ℝ) ^ ((bitLength l.num.natAbs : ℤ) - bitLength l.den - 1)
      = 2 ^ (bitLength l.num.natAbs - 1) / 2 ^ bitLength l.den := by
        rw [← zpow_natCast, ← zpow_natCast, ← zpow_sub₀ two_ne_zero, Nat.cast_sub hlen]
        congr 1
        push_cast
        ring
    _ ≤ l.num / l.den := div_le_div₀ hnum0 hnum hden0 hden
    _ ≤ l.value := le_mul_of_one_le_right (by positivity) hfactor

end Literal

end CliffordT

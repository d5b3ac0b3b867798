import CliffordT.Proofs.Working.Log
import CliffordT.Proofs.Working.Representable
import CliffordT.Working.Coarse

/-!
Coarse values of numbers.

A coarse value is made from the leading bits, and these are the largest number of their length that is not above the
number. So the coarse value depends on the number only and is monotone, and a comparison with it is a comparison
with the number up to a part in a million.
-/

namespace CliffordT

namespace Approx

variable {p : ℕ}

/-- The leading bits of a natural number are the largest number with so many bits that is not above it. -/
theorem isGreatest_leading (n : ℕ) (e : ℤ) : IsGreatest {z : ℝ | Representable leadingBits z ∧ z ≤ n * 2 ^ e}
    ((n >>> (bitLength n - leadingBits) : ℕ) * 2 ^ (e + (bitLength n - leadingBits : ℕ))) := by
  obtain ⟨drop, hdrop⟩ : ∃ drop, bitLength n - leadingBits = drop := ⟨_, rfl⟩
  have hunit : (2 : ℝ) ^ (e + (drop : ℤ)) = 2 ^ drop * 2 ^ e := by
    rw [add_comm, zpow_add₀ two_ne_zero, zpow_natCast]
  have hpos : (0 : ℝ) < 2 ^ e := by positivity
  rw [hdrop, Nat.shiftRight_eq_div_pow]
  refine ⟨⟨⟨(n / 2 ^ drop : ℕ), e + drop, ?_, rfl⟩, ?_⟩, ?_⟩
  · rw [Nat.abs_cast]
    have hlt : n / 2 ^ drop < 2 ^ leadingBits := by
      refine Nat.div_lt_of_lt_mul ?_
      rw [← pow_add]
      exact (lt_two_pow_bitLength n).trans_le (Nat.pow_le_pow_right (by norm_num) (by omega))
    exact_mod_cast hlt.le
  · rw [hunit, ← mul_assoc]
    refine mul_le_mul_of_nonneg_right ?_ hpos.le
    exact_mod_cast Nat.div_mul_le_self n (2 ^ drop)
  · rintro z ⟨hz, hle⟩
    rcases Nat.eq_zero_or_pos drop with rfl | hdroppos
    · simpa using hle
    rcases hz.multiple_or_small (by decide) (e + drop) with ⟨c, rfl⟩ | hsmall
    · rw [hunit, ← mul_assoc, mul_le_mul_iff_left₀ hpos] at hle
      refine mul_le_mul_of_nonneg_right ?_ (by positivity)
      have hint : c * (2 ^ drop : ℕ) ≤ (n : ℤ) := by exact_mod_cast hle
      have hquot : c ≤ ((n / 2 ^ drop : ℕ) : ℤ) := (Int.le_ediv_iff_mul_le (by positivity)).2 hint
      rw [← Int.cast_natCast (n / 2 ^ drop), Int.cast_le]
      exact hquot
    · -- a finer number is below the least number with so many bits
      have hlow : (2 : ℝ) ^ (leadingBits - 1) ≤ (n / 2 ^ drop : ℕ) := by
        have hmul : 2 ^ (leadingBits - 1) * 2 ^ drop ≤ n := by
          rw [← pow_add]
          exact two_pow_le_of_bitLength (by rw [leadingBits] at hdrop ⊢; omega)
        exact_mod_cast (Nat.le_div_iff_mul_le (Nat.two_pow_pos drop)).2 hmul
      exact (le_abs_self z).trans (hsmall.trans (mul_le_mul_of_nonneg_right hlow (by positivity)))

/-- The coarse value of a number that is not negative is the rounding of its leading bits. -/
theorem exists_leading {x : Approx p} (hx : 0 ≤ x.toReal) :
    ∃ t, IsGreatest {z : ℝ | Representable leadingBits z ∧ z ≤ x.toReal} t ∧ Rounds coarseBits t x.coarsen.toReal := by
  have hmant : ¬x.mant < 0 := fun h => absurd ((toReal_neg_iff x).2 h) hx.not_gt
  have hnat : (x.mant.natAbs : ℤ) = x.mant := Int.natAbs_of_nonneg (not_lt.1 hmant)
  have hgreatest := isGreatest_leading x.mant.natAbs x.exp
  rw [← Int.cast_natCast, hnat, ← toReal_eq] at hgreatest
  refine ⟨_, hgreatest, ?_⟩
  rw [coarsen]
  rw [if_neg hmant]
  exact Rounds.round _ _

theorem coarsen_mono {x y : Approx p} (hx : 0 ≤ x.toReal) (hxy : x.toReal ≤ y.toReal) :
    x.coarsen.toReal ≤ y.coarsen.toReal := by
  obtain ⟨s, hs, hxs⟩ := exists_leading hx
  obtain ⟨t, ht, hyt⟩ := exists_leading (hx.trans hxy)
  exact hxs.mono (by decide) hyt (ht.2 ⟨hs.1.1, hs.1.2.trans hxy⟩)

theorem coarsen_nonpos {x : Approx p} (hx : x.toReal ≤ 0) : x.coarsen.toReal ≤ 0 := by
  have hmant : x.mant ≤ 0 := not_lt.1 fun h => absurd ((toReal_pos_iff x).2 h) hx.not_gt
  rw [coarsen]
  refine (Rounds.round _ _).nonpos (by decide) (mul_nonpos_of_nonpos_of_nonneg ?_ (by positivity))
  split
  · exact_mod_cast Int.neg_nonpos_of_nonneg (Int.natCast_nonneg _)
  · have : x.mant = 0 := by omega
    rw [this]
    simp

/-- A coarse value exceeds a number by a small part of it at most. -/
theorem coarsen_le {x : Approx p} (hx : 0 ≤ x.toReal) : x.coarsen.toReal ≤ (1 + ulp coarseBits) * x.toReal := by
  obtain ⟨t, ht, hround⟩ := exists_leading hx
  have ht0 : 0 ≤ t := ht.2 ⟨Representable.zero, hx⟩
  have herror := (abs_le.1 hround.error).2
  rw [abs_of_nonneg ht0] at herror
  have hle := ht.1.2
  have hpos := ulp_pos coarseBits
  nlinarith

end Approx

namespace Coarse

theorem less_finite_iff (x y : CoarseReal) : less (.finite x) (.finite y) = true ↔ x.toReal < y.toReal := by
  rw [less, order?, decide_eq_true_eq, Option.some_inj]
  exact Approx.order_eq_lt_iff (by decide) x y

theorem ofInt_less_iff {p : ℕ} (n : ℕ) (hn : bitLength n ≤ coarseBits) (x : Approx p) :
    less (ofInt n) x.toCoarse = true ↔ (n : ℝ) < x.coarsen.toReal := by
  rw [ofInt, Approx.toCoarse, less_finite_iff, Approx.ofInt, Approx.round_of_bitLength_le _ (by simpa using hn),
    zpow_zero, mul_one, Int.cast_natCast]

end Coarse

end CliffordT

import CliffordT.Proofs.Number.Bits
import CliffordT.Proofs.Working.Drift
import Mathlib.Algebra.Order.Floor.Semifield
import Mathlib.Analysis.Real.Pi.Bounds
import Mathlib.Analysis.SpecialFunctions.Complex.Arctan

/-!
The computed `π` is near the real number `π`.

Every term of the two series is a nested quotient of natural numbers, so it is the exact term without its fraction, and
the terms that are never formed add up to less than one. Each arctangent is therefore off by at most one for
every term, and there are no more terms than bits.
-/

namespace CliffordT

open Finset

namespace Machin

/-- The size of a term of the series of `arctan (1/x)`. -/
noncomputable def arctanTerm (x i : ℕ) : ℝ := (x : ℝ)⁻¹ ^ (2 * i + 1) / (2 * i + 1 : ℕ)

/-- The first terms of the series. -/
noncomputable def arctanSum (x n : ℕ) : ℝ := ∑ i ∈ range n, (-1) ^ i * arctanTerm x i

variable {x : ℕ}

theorem arctanTerm_antitone (hx : 2 ≤ x) : Antitone (arctanTerm x) := by
  have hinv : (x : ℝ)⁻¹ ≤ 1 := inv_le_one_of_one_le₀ (by exact_mod_cast (by omega : 1 ≤ x))
  intro i j hij
  refine div_le_div₀ (by positivity) ?_ (by positivity) (by exact_mod_cast (by omega : 2 * i + 1 ≤ 2 * j + 1))
  exact pow_le_pow_of_le_one (by positivity) hinv (by omega)

/-- The sum of the terms left out of an alternating series is at most the first of them. -/
theorem abs_arctan_sub_sum_le (hx : 2 ≤ x) (n : ℕ) : |Real.arctan (x : ℝ)⁻¹ - arctanSum x n| ≤ arctanTerm x n := by
  have hnorm : ‖(x : ℝ)⁻¹‖ < 1 := by
    rw [Real.norm_of_nonneg (by positivity)]
    exact inv_lt_one_of_one_lt₀ (by exact_mod_cast (by omega : 1 < x))
  have hsum := Real.hasSum_arctan hnorm
  simp only [mul_div_assoc] at hsum
  have hsummable : Summable (arctanTerm x) := by
    have := hsum.summable.abs
    refine this.congr fun i => ?_
    rw [abs_mul, abs_pow, abs_neg, abs_one, one_pow, one_mul, abs_of_nonneg (by positivity), arctanTerm]
  have := alternating_series_error_bound _ (arctanTerm_antitone hx) hsummable n
  rwa [show tsum (fun i => (-1) ^ i * arctanTerm x i) = Real.arctan (x : ℝ)⁻¹ from hsum.tsum_eq] at this

theorem arctanSum_succ (x n : ℕ) : arctanSum x (n + 1) = arctanSum x n + (-1) ^ n * arctanTerm x n :=
  sum_range_succ _ n

theorem mul_arctanTerm (b x i : ℕ) : b * arctanTerm x i = b / (x ^ (2 * i + 1) * (2 * i + 1) : ℕ) := by
  rw [arctanTerm, inv_pow, inv_eq_one_div, div_div, mul_one_div]
  push_cast
  rfl

/-- A term that is formed is the exact term without its fraction. -/
theorem abs_sub_term_le (x b i : ℕ) :
    |((b / x ^ (2 * i + 1) / (2 * i + 1) : ℕ) : ℝ) - b * arctanTerm x i| ≤ 1 := by
  rw [mul_arctanTerm, Nat.div_div_eq_div_mul, abs_sub_comm, abs_of_nonneg (sub_nonneg.2 Nat.cast_div_le)]
  have := Nat.lt_floor_add_one ((b : ℝ) / (x ^ (2 * i + 1) * (2 * i + 1) : ℕ))
  rw [Nat.floor_div_eq_div] at this
  linarith

theorem cast_signed (n : ℕ) (sum term : ℤ) :
    ((if n % 2 = 1 then sum - term else sum + term : ℤ) : ℝ) = sum + (-1) ^ n * term := by
  split
  · next hodd =>
    rw [(Nat.odd_iff.2 hodd).neg_one_pow]
    push_cast
    ring
  · next heven =>
    rw [(Nat.even_iff.2 (by omega)).neg_one_pow]
    push_cast
    ring

/-- What is added to the sum so far is `b` times the rest of the series, up to the number of bits of the power and one. -/
theorem abs_arctanTail_sub_le (hx : 2 ≤ x) {b power n : ℕ} (hpower : power = b / x ^ (2 * n + 1)) (sum : ℤ) :
    |(arctanTail (x * x) power (n + 1) sum : ℝ) - (sum + b * (Real.arctan (x : ℝ)⁻¹ - arctanSum x (n + 1)))| ≤
      bitLength power + 1 := by
  -- By induction on the power, which loses two bits at least with every term; a term costs one of them, and what is left out
  -- in the end is the one in hand.
  induction power using Nat.strong_induction_on generalizing n sum with
  | _ power ih =>
    obtain ⟨next, hdef⟩ : ∃ next, power / (x * x) = next := ⟨_, rfl⟩
    have hnext : next = b / x ^ (2 * (n + 1) + 1) := by
      rw [← hdef, hpower, Nat.div_div_eq_div_mul]
      ring_nf
    have hquarter : next ≤ power / 2 ^ 2 := hdef ▸ Nat.div_le_div_left (Nat.mul_le_mul hx hx) (by norm_num)
    rw [arctanTail]
    simp only [hdef]
    split
    · next hstop =>
      have hlt : b < x ^ (2 * (n + 1) + 1) :=
        (Nat.div_eq_zero_iff.1 (hnext ▸ (by omega : next = 0))).resolve_left (by positivity)
      have hsmall : b * arctanTerm x (n + 1) ≤ 1 := by
        rw [mul_arctanTerm]
        refine div_le_one_of_le₀ ?_ (by positivity)
        exact_mod_cast hlt.le.trans (Nat.le_mul_of_pos_right _ (by omega))
      have hrest := mul_le_mul_of_nonneg_left (abs_arctan_sub_sum_le hx (n + 1)) (Nat.cast_nonneg (α := ℝ) b)
      rw [sub_add_cancel_left, abs_neg, abs_mul, Nat.abs_cast]
      linarith [Nat.cast_nonneg (α := ℝ) (bitLength power)]
    · next hgo =>
      have hlen : (bitLength next : ℝ) + 1 ≤ bitLength power := by
        have := bitLength_div_two_pow_le (n := power) (k := 2) (by omega)
        have := bitLength_mono hquarter
        exact_mod_cast (by omega : bitLength next + 1 ≤ bitLength power)
      have hterm := abs_sub_term_le x b (n + 1)
      rw [← hnext] at hterm
      rw [show (next : ℤ) / (2 * (n + 1 : ℕ) + 1) = (next / (2 * (n + 1) + 1) : ℕ) by push_cast; rfl]
      generalize next / (2 * (n + 1) + 1) = term at hterm ⊢
      have hsigned : |(-1 : ℝ) ^ (n + 1) * term - (-1) ^ (n + 1) * (b * arctanTerm x (n + 1))| ≤ 1 := by
        rw [← mul_sub, abs_mul, abs_pow, abs_neg, abs_one, one_pow, one_mul]
        exact hterm
      have hrest := ih next (by omega) hnext (if (n + 1) % 2 = 1 then sum - term else sum + term)
      rw [arctanSum_succ x (n + 1), cast_signed, Int.cast_natCast] at hrest
      rw [abs_le] at hrest hsigned ⊢
      constructor <;> linarith

/-- Every arctangent is off by at most the number of bits and two. -/
theorem abs_arctanInv_sub_le (hx : 2 ≤ x) (bits : ℕ) :
    |(arctanInv x bits : ℝ) - 2 ^ bits * Real.arctan (x : ℝ)⁻¹| ≤ bits + 2 := by
  have hsum : arctanSum x 1 = (x : ℝ)⁻¹ := by simp [arctanSum, arctanTerm]
  obtain ⟨first, hfirst⟩ : ∃ first, 2 ^ bits / x = first := ⟨_, rfl⟩
  have hquotient : |(first : ℝ) - 2 ^ bits * (x : ℝ)⁻¹| ≤ 1 := by
    simpa [arctanTerm, hfirst] using abs_sub_term_le x (2 ^ bits) 0
  have hlen : (bitLength first : ℝ) ≤ bits := by
    have hhalf : first ≤ 2 ^ bits / 2 := hfirst ▸ Nat.div_le_div_left hx (by norm_num)
    have hpos := Nat.two_pow_pos bits
    exact_mod_cast bitLength_le_iff.2 (by omega)
  have htail := abs_arctanTail_sub_le (b := 2 ^ bits) (n := 0) hx (by rw [mul_zero, zero_add, pow_one]) first
  rw [hfirst, zero_add, hsum, Int.cast_natCast, Nat.cast_pow, Nat.cast_ofNat] at htail
  rw [arctanInv, twoPow_eq, hfirst]
  rw [abs_le] at htail hquotient ⊢
  constructor <;> linarith

/-- The extra bits leave little more of the error of the arctangents than the last fraction. -/
theorem abs_scaledPi_sub_le (bits : ℕ) : |(scaledPi bits : ℝ) - 2 ^ bits * Real.pi| ≤ bits / 2048 + 2 := by
  have h₅ := abs_arctanInv_sub_le (x := 5) (by norm_num) (bits + extraBits)
  have h₂₃₉ := abs_arctanInv_sub_le (x := 239) (by norm_num) (bits + extraBits)
  have hmachin : (2 : ℝ) ^ bits * Real.pi =
      16 * (2 ^ bits * Real.arctan (5 : ℝ)⁻¹) - 4 * (2 ^ bits * Real.arctan (239 : ℝ)⁻¹) := by
    linear_combination -4 * 2 ^ bits * Real.four_mul_arctan_inv_5_sub_arctan_inv_239
  rw [scaledPi, twoPow_eq]
  obtain ⟨v, hv⟩ : ∃ v, arctanInv 5 (bits + extraBits) * 16 - arctanInv 239 (bits + extraBits) * 4 = v := ⟨_, rfl⟩
  have hcast : (arctanInv 5 (bits + extraBits) : ℝ) * 16 - arctanInv 239 (bits + extraBits) * 4 = v := by
    exact_mod_cast hv
  have hdown : ((v / 65536 : ℤ) : ℝ) * 65536 ≤ v := by
    exact_mod_cast Int.ediv_mul_le v (by norm_num)
  have hup : (v : ℝ) < ((v / 65536 : ℤ) + 1) * 65536 := by
    exact_mod_cast Int.lt_ediv_add_one_mul_self v (by norm_num)
  -- twenty arctangents, each off by `bits + 18`, and the extra bits divide their error by `65536`
  rw [hv, show ((2 ^ extraBits : ℕ) : ℤ) = 65536 by norm_num [extraBits]]
  rw [show ((bits + extraBits : ℕ) : ℝ) = bits + 16 by push_cast [extraBits]; rfl, pow_add,
    show (2 : ℝ) ^ extraBits = 65536 by norm_num [extraBits], abs_le] at h₅ h₂₃₉
  push_cast at h₅ h₂₃₉
  have hbits : (0 : ℝ) ≤ bits := Nat.cast_nonneg bits
  rw [abs_le, hmachin]
  constructor <;> linarith

end Machin

namespace Approx

variable {p : ℕ}

theorem Near.pi : Near (p / 4096 + 2) Real.pi (pi : Approx p) Real.pi := by
  have hexact : |(Machin.scaledPi p : ℝ) * 2 ^ (-(p : ℤ)) - Real.pi| ≤ drift p (p / 4096 + 1) * Real.pi := by
    have hulp : ulp p = 2 * 2 ^ (-(p : ℤ)) := by
      rw [ulp_eq, sub_eq_add_neg, zpow_add₀ (by norm_num), zpow_one]
    have hsum := Machin.abs_scaledPi_sub_le p
    have hdrift := mul_ulp_le_drift p (p / 4096 + 1)
    have hcount : (p : ℝ) ≤ 4096 * (p / 4096 + 1 : ℕ) := by exact_mod_cast (by omega : p ≤ 4096 * (p / 4096 + 1))
    have hone : (1 : ℝ) ≤ (p / 4096 + 1 : ℕ) := by exact_mod_cast Nat.le_add_left 1 _
    generalize p / 4096 + 1 = k at hdrift hcount hone ⊢
    rw [hulp, zpow_neg, zpow_natCast] at hdrift
    rw [zpow_neg, zpow_natCast, ← div_eq_mul_inv, div_sub' (by positivity), abs_div,
      abs_of_pos (by positivity : (0 : ℝ) < 2 ^ p), div_eq_mul_inv]
    calc |(Machin.scaledPi p : ℝ) - 2 ^ p * Real.pi| * (2 ^ p)⁻¹ ≤ (k * (2 * 3)) * (2 ^ p)⁻¹ :=
        mul_le_mul_of_nonneg_right (by linarith) (by positivity)
      _ = k * (2 * (2 ^ p)⁻¹) * 3 := by ring
      _ ≤ drift p k * Real.pi := mul_le_mul hdrift Real.pi_gt_three.le (by norm_num) (drift_nonneg p _)
  exact of_rounded (abs_toReal_round_sub_le _ _) hexact (abs_of_pos Real.pi_pos).le

end Approx

end CliffordT

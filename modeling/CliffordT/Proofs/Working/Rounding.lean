import CliffordT.Proofs.Number.Bits
import CliffordT.Working.Approx
import Mathlib.Analysis.SpecialFunctions.Pow.Real
import Mathlib.Analysis.Real.Sqrt
import Mathlib.Tactic

/-!
What rounding costs.

A number of working precision stands for a real number, and every operation gives the exact result up to one unit in the
last place. Nothing else about rounding is used by the error bounds that build on this: only the
comparison, which takes the sign of a rounded difference, and the integer parts are exact.
-/

namespace CliffordT

/-- One unit in the last place of a number of `p` bits, as a fraction of the number. -/
noncomputable def ulp (p : ℕ) : ℝ := (2 : ℕ) ^ (1 - (p : ℤ))

theorem ulp_eq (p : ℕ) : ulp p = 2 ^ (1 - (p : ℤ)) := by rw [ulp, Nat.cast_ofNat]

theorem ulp_pos (p : ℕ) : 0 < ulp p := by
  rw [ulp_eq]
  positivity

theorem ulp_mul_two_pow (p k : ℕ) : ulp p * 2 ^ (p + k) = 2 ^ (k + 1) := by
  rw [ulp_eq, ← zpow_natCast, ← zpow_natCast, ← zpow_add₀ two_ne_zero]
  congr 1
  push_cast
  ring

theorem ulp_le_half {p : ℕ} (hp : 2 ≤ p) : ulp p ≤ 1 / 2 := by
  rw [ulp_eq, one_div, ← zpow_neg_one]
  exact zpow_le_zpow_right₀ one_le_two (by omega)

/-- The quotient by a power of two is rounded by at most half. -/
theorem two_mul_abs_roundShift_sub (n s : ℕ) : 2 * |(roundShift n s : ℤ) * 2 ^ s - n| ≤ 2 ^ s := by
  rw [roundShift]
  split
  · next h => simp [h]
  · next hs =>
    obtain ⟨k, rfl⟩ : ∃ k, s = k + 1 := ⟨s - 1, by omega⟩
    have hr : n - n / 2 ^ (k + 1) * 2 ^ (k + 1) = n % 2 ^ (k + 1) := Nat.mod_eq_sub_div_mul.symm
    have hn : (n : ℤ) = (n / 2 ^ (k + 1) : ℕ) * 2 ^ (k + 1) + (n % 2 ^ (k + 1) : ℕ) := by
      exact_mod_cast (Nat.div_add_mod' n (2 ^ (k + 1))).symm
    have hlt : n % 2 ^ (k + 1) < 2 ^ (k + 1) := Nat.mod_lt _ (by positivity)
    simp only [Nat.add_sub_cancel, Nat.shiftLeft_eq, one_mul, Nat.shiftRight_eq_div_pow, hr]
    generalize n / 2 ^ (k + 1) = q at hn ⊢
    generalize n % 2 ^ (k + 1) = r at hn hlt ⊢
    have hpow : (2 : ℤ) ^ (k + 1) = 2 * 2 ^ k := pow_succ' 2 k
    have hlt' : (r : ℤ) < 2 * 2 ^ k := by
      rw [← hpow]
      exact_mod_cast hlt
    -- Going down leaves the remainder, going up what it lacks; both are at most half of the power.
    have hbound (c : ℕ) (d : ℤ) (hc : (c : ℤ) = q + d) (hd : |d * 2 ^ (k + 1) - r| ≤ 2 ^ k) :
        2 * |(c : ℤ) * 2 ^ (k + 1) - n| ≤ 2 ^ (k + 1) := by
      rw [hn, hc, show ((q : ℤ) + d) * 2 ^ (k + 1) - (q * 2 ^ (k + 1) + r) = d * 2 ^ (k + 1) - r by ring]
      linarith
    have hdown (h : (r : ℤ) ≤ 2 ^ k) : |(0 : ℤ) * 2 ^ (k + 1) - r| ≤ 2 ^ k := by
      rw [abs_le]
      constructor <;> linarith [Int.natCast_nonneg r]
    have hup (h : (2 : ℤ) ^ k ≤ r) : |(1 : ℤ) * 2 ^ (k + 1) - r| ≤ 2 ^ k := by
      rw [abs_le]
      constructor <;> linarith
    split
    · next hlow => exact hbound q 0 (by simp) (hdown (by exact_mod_cast hlow.le))
    · split
      · next heq =>
        have heq' : (r : ℤ) = 2 ^ k := by exact_mod_cast heq
        obtain h | h : q % 2 = 0 ∨ q % 2 = 1 := by omega
        · exact hbound _ 0 (by simp [h]) (hdown heq'.le)
        · exact hbound _ 1 (by simp [h]) (hup heq'.ge)
      · next hhigh hne => exact hbound _ 1 (by simp) (hup (by exact_mod_cast not_lt.1 hhigh))

/-- What lies within half a unit of an integer is rounded to it. -/
theorem roundShift_eq_of_near {n s c : ℕ} (h : 2 * |(c : ℤ) * 2 ^ s - n| < 2 ^ s) : roundShift n s = c := by
  have hnear := two_mul_abs_roundShift_sub n s
  have hpow : (0 : ℤ) < 2 ^ s := by positivity
  have hdiff : |(roundShift n s : ℤ) - c| * 2 ^ s < 1 * 2 ^ s := by
    rw [← abs_of_pos hpow, ← abs_mul, sub_mul, abs_of_pos hpow]
    rw [abs_sub_comm] at h
    have := abs_sub_le ((roundShift n s : ℤ) * 2 ^ s) n (c * 2 ^ s)
    linarith
  have := Int.abs_lt_one_iff.1 (lt_of_mul_lt_mul_right hdiff hpow.le)
  omega

namespace Approx

variable {p : ℕ}

/-- The real number that a number of working precision stands for. -/
noncomputable def toReal (x : Approx p) : ℝ := x.mant * (2 : ℕ) ^ x.exp

theorem toReal_eq (x : Approx p) : x.toReal = x.mant * 2 ^ x.exp := by rw [toReal, Nat.cast_ofNat]

theorem toReal_mk (m e : ℤ) : (⟨m, e⟩ : Approx p).toReal = m * 2 ^ e := toReal_eq _

@[simp] theorem toReal_zero : (0 : Approx p).toReal = 0 := by
  change ((0 : ℤ) : ℝ) * (2 : ℕ) ^ (0 : ℤ) = 0
  simp

@[simp] theorem toReal_one : (1 : Approx p).toReal = 1 := by
  change ((1 : ℤ) : ℝ) * (2 : ℕ) ^ (0 : ℤ) = 1
  simp

@[simp] theorem toReal_neg (x : Approx p) : (-x).toReal = -x.toReal := by
  change ((-x.mant : ℤ) : ℝ) * (2 : ℕ) ^ x.exp = -(x.mant * (2 : ℕ) ^ x.exp)
  push_cast
  ring

@[simp] theorem toReal_powTwo (e : ℤ) : (powTwo e : Approx p).toReal = 2 ^ e := by
  simp [powTwo, toReal_eq]

@[simp] theorem toReal_abs (x : Approx p) : x.abs.toReal = |x.toReal| := by
  simp only [abs, toReal_eq, abs_mul, abs_zpow, abs_two]
  congr 1
  exact_mod_cast (Int.natCast_natAbs x.mant)

theorem toReal_shift (x : Approx p) (e : ℤ) : (x.shift e).toReal = x.toReal * 2 ^ e := by
  rw [shift]
  split
  · next h => rw [toReal_zero, toReal_eq, h, Int.cast_zero, zero_mul, zero_mul]
  · rw [toReal_eq, toReal_eq, zpow_add₀ two_ne_zero, mul_assoc]

theorem toReal_eq_zero_iff (x : Approx p) : x.toReal = 0 ↔ x.mant = 0 := by
  simp [toReal_eq, zpow_ne_zero]

theorem toReal_pos_iff (x : Approx p) : 0 < x.toReal ↔ 0 < x.mant := by
  rw [toReal_eq, mul_pos_iff_of_pos_right (by positivity), Int.cast_pos]

theorem toReal_neg_iff (x : Approx p) : x.toReal < 0 ↔ x.mant < 0 := by
  rw [toReal_eq, mul_neg_iff]
  have hpos : (0 : ℝ) < 2 ^ x.exp := by positivity
  simp [hpos, hpos.not_gt]

/-! ### One rounding -/

theorem abs_toReal_round_sub_le_half (m e : ℤ) :
    |(round p m e).toReal - m * 2 ^ e| ≤ ulp p / 2 * |(m : ℝ) * 2 ^ e| := by
  have hpos := ulp_pos p
  rw [round]
  dsimp only
  split
  · next h =>
    rw [bitLength_eq_zero_iff, Int.natAbs_eq_zero] at h
    simp [h, toReal_eq]
  · split
    · rw [toReal_eq, sub_self, abs_zero]
      positivity
    · next hlen hlong =>
      obtain ⟨s, hs⟩ : ∃ s, bitLength m.natAbs = p + s + 1 := ⟨bitLength m.natAbs - p - 1, by omega⟩
      have hsub : bitLength m.natAbs - p = s + 1 := by omega
      have hn : (2 : ℝ) ^ (p + s) ≤ |(m : ℝ)| := by
        have := two_pow_le_of_bitLength (n := m.natAbs) (k := p + s) (by omega)
        rw [← Int.cast_abs, Int.abs_eq_natAbs]
        exact_mod_cast this
      have hshift := two_mul_abs_roundShift_sub m.natAbs (s + 1)
      rw [hsub]
      set q := roundShift m.natAbs (s + 1) with hq
      have herr : |((if m < 0 then -(q : ℤ) else q : ℤ) : ℝ) * 2 ^ (s + 1) - m| ≤ 2 ^ s := by
        have hint : 2 * |(if m < 0 then -(q : ℤ) else q) * 2 ^ (s + 1) - m| ≤ 2 ^ (s + 1) := by
          split
          · next hm =>
            rw [show -(q : ℤ) * 2 ^ (s + 1) - m = -((q : ℤ) * 2 ^ (s + 1) - (m.natAbs : ℤ)) by
              rw [Int.ofNat_natAbs_of_nonpos hm.le]; ring, abs_neg]
            exact hshift
          · next hm =>
            rwa [Int.natAbs_of_nonneg (not_lt.1 hm)] at hshift
        have hhalf := (mul_le_mul_iff_right₀ (by norm_num : (0 : ℤ) < 2)).1 (hint.trans_eq (pow_succ' 2 s))
        exact_mod_cast hhalf
      rw [toReal_mk]
      generalize (if m < 0 then -(q : ℤ) else (q : ℤ)) = c at herr ⊢
      have hsplit : (c : ℝ) * 2 ^ (e + ((s + 1 : ℕ) : ℤ)) - m * 2 ^ e = (c * 2 ^ (s + 1) - m) * 2 ^ e := by
        rw [zpow_add₀ two_ne_zero, zpow_natCast]
        ring
      rw [hsplit, abs_mul, abs_mul, ← mul_assoc]
      refine mul_le_mul_of_nonneg_right ?_ (abs_nonneg _)
      calc |(c : ℝ) * 2 ^ (s + 1) - m| ≤ 2 ^ s := herr
        _ = ulp p / 2 * 2 ^ (p + s) := by
          have := ulp_mul_two_pow p s
          rw [pow_succ] at this
          linarith
        _ ≤ ulp p / 2 * |(m : ℝ)| := mul_le_mul_of_nonneg_left hn (by positivity)

theorem abs_toReal_round_sub_le (m e : ℤ) :
    |(round p m e).toReal - m * 2 ^ e| ≤ ulp p * |(m : ℝ) * 2 ^ e| := by
  refine (abs_toReal_round_sub_le_half m e).trans ?_
  have := ulp_pos p
  exact mul_le_mul_of_nonneg_right (by linarith) (abs_nonneg _)

theorem round_of_bitLength_le {m : ℤ} (e : ℤ) (h : bitLength m.natAbs ≤ p) :
    (round p m e).toReal = m * 2 ^ e := by
  rw [round]
  dsimp only
  split
  · next h0 =>
    rw [bitLength_eq_zero_iff, Int.natAbs_eq_zero] at h0
    simp [h0, toReal_eq]
  · rfl

/-- An operation may round a number near its result, as long as that number is near enough. -/
theorem abs_sub_le_of_near {a b c d : ℝ} (hd : 0 ≤ d) (hd2 : d ≤ 1) (h : |a - b| ≤ d / 2 * |b|)
    (hb : |b - c| ≤ d / 4 * |c|) : |a - c| ≤ d * |c| := by
  have htri : |a - c| ≤ |a - b| + |b - c| := abs_sub_le a b c
  have hsize : |b| ≤ (1 + d / 4) * |c| := by linarith [abs_sub_abs_le_abs_sub b c]
  have hfirst : d / 2 * |b| ≤ d / 2 * ((1 + d / 4) * |c|) := mul_le_mul_of_nonneg_left hsize (by positivity)
  have hnonneg : 0 ≤ d * |c| := by positivity
  have hprod : d * (d * |c|) ≤ 1 * (d * |c|) := mul_le_mul_of_nonneg_right hd2 hnonneg
  linarith

theorem ulp_div_four (p : ℕ) : ulp p / 4 * 2 ^ (p + 2) = 2 := by
  rw [div_mul_eq_mul_div, ulp_mul_two_pow]
  norm_num

/-- Rounding a number that is off by a quarter of a unit or less costs no more than one unit. -/
theorem abs_toReal_round_sub_le_of_near (hp : 1 ≤ p) {m e : ℤ} {c : ℝ}
    (h : |(m : ℝ) * 2 ^ e - c| ≤ ulp p / 4 * |c|) : |(round p m e).toReal - c| ≤ ulp p * |c| := by
  have hulp : ulp p ≤ 1 := by
    rw [ulp_eq]
    exact zpow_le_one_of_nonpos₀ one_le_two (by omega)
  exact abs_sub_le_of_near (ulp_pos p).le hulp (abs_toReal_round_sub_le_half m e) h

/-! ### The operations -/

theorem abs_ofInt_sub_le (n : ℤ) : |(ofInt n : Approx p).toReal - n| ≤ ulp p * |(n : ℝ)| := by
  have := abs_toReal_round_sub_le (p := p) n 0
  rwa [zpow_zero, mul_one] at this

theorem abs_scale_sub_le (x : Approx p) (n : ℤ) :
    |(x.scale n).toReal - x.toReal * n| ≤ ulp p * |x.toReal * n| := by
  have := abs_toReal_round_sub_le (p := p) (x.mant * n) x.exp
  rwa [show ((x.mant * n : ℤ) : ℝ) * 2 ^ x.exp = x.toReal * n by rw [toReal_eq]; push_cast; ring] at this

theorem abs_mul_sub_le (x y : Approx p) :
    |(x * y).toReal - x.toReal * y.toReal| ≤ ulp p * |x.toReal * y.toReal| := by
  have := abs_toReal_round_sub_le (p := p) (x.mant * y.mant) (x.exp + y.exp)
  rwa [show ((x.mant * y.mant : ℤ) : ℝ) * 2 ^ (x.exp + y.exp) = x.toReal * y.toReal by
    rw [toReal_eq, toReal_eq, zpow_add₀ two_ne_zero]; push_cast; ring] at this

theorem abs_toReal_lt (x : Approx p) : |x.toReal| < 2 ^ ((bitLength x.mant.natAbs : ℤ) + x.exp) := by
  have hlen : (x.mant.natAbs : ℝ) < 2 ^ (bitLength x.mant.natAbs : ℤ) := by
    rw [zpow_natCast]
    exact_mod_cast lt_two_pow_bitLength x.mant.natAbs
  rw [toReal_eq, abs_mul, abs_zpow, abs_two, ← Int.cast_abs, Int.abs_eq_natAbs, Int.cast_natCast,
    zpow_add₀ two_ne_zero]
  exact mul_lt_mul_of_pos_right hlen (by positivity)

theorem two_zpow_exp_le {x : Approx p} (hx : x.mant ≠ 0) : 2 ^ x.exp ≤ |x.toReal| := by
  rw [toReal_eq, abs_mul, abs_zpow, abs_two]
  exact le_mul_of_one_le_left (by positivity) (by exact_mod_cast Int.one_le_abs hx)

/-- A number is at most one unit from the unit of its sign if it is smaller than that. -/
theorem abs_sign_mul_sub_le {x : Approx p} (hx : x.mant ≠ 0) {unit : ℝ} (h : |x.toReal| < unit) :
    |x.mant.sign * unit - x.toReal| ≤ unit := by
  obtain hneg | hpos := lt_or_gt_of_ne hx
  · have := (toReal_neg_iff x).2 hneg
    rw [Int.sign_eq_neg_one_of_neg hneg, abs_le]
    rw [abs_of_neg this] at h
    constructor <;> push_cast <;> linarith
  · have := (toReal_pos_iff x).2 hpos
    rw [Int.sign_eq_one_of_pos hpos, abs_le]
    rw [abs_of_pos this] at h
    constructor <;> push_cast <;> linarith

/-- The unit two places behind the last one of a number is at most a quarter of a unit of a sum with a smaller number. -/
theorem unit_le_ulp_div_four_mul {a b unit : ℝ} (hunit : 0 < unit) (ha : 2 ^ (p + 2) * unit ≤ |a|) (hb : |b| < unit) :
    unit ≤ ulp p / 4 * |a + b| := by
  have hpos := ulp_pos p
  have hfour := ulp_div_four p
  have hbig : (2 : ℝ) ≤ 2 ^ (p + 2) := by
    calc (2 : ℝ) = 2 ^ 1 := (pow_one 2).symm
      _ ≤ 2 ^ (p + 2) := pow_le_pow_right₀ one_le_two (by omega)
  have hsum : |a| - |b| ≤ |a + b| := by
    have := abs_sub_abs_le_abs_sub a (-b)
    rwa [abs_neg, sub_neg_eq_add] at this
  calc unit = ulp p / 4 * (2 ^ (p + 2) / 2) * unit := by
        rw [show ulp p / 4 * (2 ^ (p + 2) / 2) = 1 by linarith, one_mul]
    _ ≤ ulp p / 4 * (2 ^ (p + 2) - 1) * unit :=
        mul_le_mul_of_nonneg_right (mul_le_mul_of_nonneg_left (by linarith) (by positivity)) hunit.le
    _ = ulp p / 4 * (2 ^ (p + 2) * unit - unit) := by ring
    _ ≤ ulp p / 4 * |a + b| := mul_le_mul_of_nonneg_left (by linarith) (by positivity)

/-- Across a wide gap the second number is below the unit two places behind the last one of the first number, and the number
that is rounded in place of the sum is one such unit away from the first number. -/
theorem wide_gap {x y : Approx p} (hx : x.mant ≠ 0) (hgap : bitLength y.mant.natAbs + p + 2 ≤ (x.exp - y.exp).toNat)
    {e : ℤ} (he : e = x.exp - (p + 2 : ℕ)) : |y.toReal| < 2 ^ e ∧ 2 ^ (p + 2) * 2 ^ e ≤ |x.toReal| ∧
      ((x.mant * (twoPow (p + 2) : ℕ) + y.mant.sign : ℤ) : ℝ) * 2 ^ e = x.toReal + y.mant.sign * 2 ^ e := by
  have hunit : (2 : ℝ) ^ x.exp = 2 ^ (p + 2) * 2 ^ e := by
    rw [← zpow_natCast, ← zpow_add₀ two_ne_zero]
    congr 1
    omega
  refine ⟨y.abs_toReal_lt.trans_le (zpow_le_zpow_right₀ one_le_two (by omega)), hunit ▸ two_zpow_exp_le hx, ?_⟩
  rw [toReal_eq x, hunit, twoPow_eq]
  push_cast
  ring

theorem abs_addOrdered_sub_le (hp : 1 ≤ p) {x y : Approx p} (hx : x.mant ≠ 0) (hy : y.mant ≠ 0)
    (h : y.exp ≤ x.exp) :
    |(addOrdered x y).toReal - (x.toReal + y.toReal)| ≤ ulp p * |x.toReal + y.toReal| := by
  rw [addOrdered]
  split
  · next hgap =>
    -- The second number and the one that stands for it have the same sign and are both at most the unit `2 ^ e`.
    refine abs_toReal_round_sub_le_of_near hp ?_
    obtain ⟨hsmall, hlarge, hvalue⟩ := wide_gap hx hgap rfl
    rw [hvalue, add_sub_add_left_eq_sub]
    exact (abs_sign_mul_sub_le hy hsmall).trans (unit_le_ulp_div_four_mul (by positivity) hlarge hsmall)
  · obtain ⟨d, hd⟩ : ∃ d : ℕ, x.exp = y.exp + d := ⟨(x.exp - y.exp).toNat, by omega⟩
    have := abs_toReal_round_sub_le (p := p) (x.mant * (twoPow (x.exp - y.exp).toNat : ℕ) + y.mant) y.exp
    rwa [show ((x.mant * (twoPow (x.exp - y.exp).toNat : ℕ) + y.mant : ℤ) : ℝ) * 2 ^ y.exp =
      x.toReal + y.toReal by
        rw [toReal_eq, toReal_eq, hd, zpow_add₀ two_ne_zero, zpow_natCast, show (y.exp + (d : ℤ) - y.exp).toNat = d by omega,
          twoPow_eq]
        push_cast
        ring] at this

theorem abs_add_sub_le (hp : 1 ≤ p) (x y : Approx p) :
    |(x + y).toReal - (x.toReal + y.toReal)| ≤ ulp p * |x.toReal + y.toReal| := by
  have hulp := (ulp_pos p).le
  change |(add x y).toReal - _| ≤ _
  rw [add]
  split
  · next hx =>
    rw [(toReal_eq_zero_iff x).2 hx, zero_add, sub_self, abs_zero]
    positivity
  · next hx =>
    split
    · next hy =>
      rw [(toReal_eq_zero_iff y).2 hy, add_zero, sub_self, abs_zero]
      positivity
    · next hy =>
      split
      · next h => exact abs_addOrdered_sub_le hp hx hy h
      · next h =>
        rw [add_comm x.toReal]
        exact abs_addOrdered_sub_le hp hy hx (by omega)

theorem abs_sub_sub_le (hp : 1 ≤ p) (x y : Approx p) :
    |(x - y).toReal - (x.toReal - y.toReal)| ≤ ulp p * |x.toReal - y.toReal| := by
  have := abs_add_sub_le hp x (-y)
  rwa [toReal_neg, ← sub_eq_add_neg] at this

/-! Quotients and roots are found as integers with a last bit that says whether something is left over. -/

theorem abs_sticky_quotient_sub_le {n b : ℕ} (hb : 0 < b) :
    |((2 * (n / b : ℕ) + (if n % b = 0 then 0 else 1) : ℤ) : ℝ) - 2 * (n / b)| ≤ 1 := by
  have hb' : (0 : ℝ) < b := by exact_mod_cast hb
  have hn : (n : ℝ) = b * (n / b : ℕ) + (n % b : ℕ) := by exact_mod_cast (Nat.div_add_mod n b).symm
  have hlt : ((n % b : ℕ) : ℝ) < b := by exact_mod_cast Nat.mod_lt n hb
  have hquot : 2 * ((n : ℝ) / b) = 2 * (n / b : ℕ) + 2 * (n % b : ℕ) / b := by
    rw [hn, add_div, mul_div_cancel_left₀ _ hb'.ne']
    ring
  rw [hquot]
  generalize n / b = q
  generalize n % b = r at hlt
  split
  · next h => simp [h]
  · next h =>
    have hpos : (0 : ℝ) < r := by exact_mod_cast Nat.pos_of_ne_zero h
    have hlow : 0 < 2 * (r : ℝ) / b := by positivity
    have hhigh : 2 * (r : ℝ) / b < 2 := by
      rw [div_lt_iff₀ hb']
      linarith
    rw [abs_le]
    push_cast
    constructor <;> linarith

theorem abs_sticky_root_sub_le (n : ℕ) :
    |((2 * (natRoot n : ℕ) + (if natRoot n * natRoot n = n then 0 else 1) : ℤ) : ℝ) - 2 * √n| ≤ 1 := by
  obtain ⟨hle, hlt⟩ := natRoot_spec n
  have hle' : ((natRoot n : ℕ) : ℝ) ≤ √n := by
    refine Real.le_sqrt_of_sq_le ?_
    exact_mod_cast (sq (natRoot n)).le.trans hle
  have hlt' : √n < (natRoot n : ℕ) + 1 := by
    rw [Real.sqrt_lt' (by positivity)]
    exact_mod_cast hlt.trans_eq (sq (natRoot n + 1)).symm
  split
  · next h =>
    have hroot : √n = (natRoot n : ℕ) := by
      rw [Real.sqrt_eq_iff_mul_self_eq (by positivity) (by positivity)]
      exact_mod_cast h.symm
    rw [hroot]
    simp
  · rw [abs_le]
    push_cast
    constructor <;> linarith

theorem two_pow_mul_le_shifted {a b s : ℕ} (ha : a ≠ 0) (h : p + 2 + bitLength b - bitLength a ≤ s) :
    2 ^ (p + 1) * b ≤ a * 2 ^ s := by
  have hlen : bitLength a ≠ 0 := fun h0 => ha (bitLength_eq_zero_iff.1 h0)
  have hlow : 2 ^ (bitLength a - 1) ≤ a := two_pow_le_of_bitLength (by omega)
  calc 2 ^ (p + 1) * b ≤ 2 ^ (p + 1) * 2 ^ bitLength b := Nat.mul_le_mul_left _ (lt_two_pow_bitLength b).le
    _ = 2 ^ (p + 1 + bitLength b) := (pow_add _ _ _).symm
    _ ≤ 2 ^ (bitLength a - 1 + s) := Nat.pow_le_pow_right (by norm_num) (by omega)
    _ = 2 ^ (bitLength a - 1) * 2 ^ s := pow_add _ _ _
    _ ≤ a * 2 ^ s := Nat.mul_le_mul_right _ hlow

/-- A unit is at most a quarter of a unit in the last place of a number of that size. -/
theorem one_le_ulp_div_four_mul {v : ℝ} (h : 2 ^ (p + 1) ≤ v) : 1 ≤ ulp p / 4 * v := by
  have hfour := ulp_div_four p
  have hpos := ulp_pos p
  calc (1 : ℝ) = ulp p / 4 * 2 ^ (p + 1) := by
        rw [pow_succ 2 (p + 1)] at hfour
        linarith
    _ ≤ ulp p / 4 * v := mul_le_mul_of_nonneg_left h (by positivity)

theorem cast_eq_sign_mul_natAbs (m : ℤ) : (m : ℝ) = (if m < 0 then -1 else 1) * (m.natAbs : ℝ) := by
  split
  · next h =>
    rw [Nat.cast_natAbs, abs_of_neg h]
    push_cast
    ring
  · next h => rw [Nat.cast_natAbs, abs_of_nonneg (not_lt.1 h), one_mul]

/-- The sign of a quotient is put in front of the quotient of the absolute values. -/
theorem exists_quotient_sign (m n t : ℤ) : ∃ σ : ℝ, |σ| = 1 ∧ (m : ℝ) / n = σ * (m.natAbs / n.natAbs) ∧
    ((if (m < 0) = (n < 0) then t else -t : ℤ) : ℝ) = σ * t := by
  refine ⟨if (m < 0) = (n < 0) then 1 else -1, by split <;> simp, ?_, by split <;> simp⟩
  rw [cast_eq_sign_mul_natAbs m, cast_eq_sign_mul_natAbs n]
  by_cases h₁ : m < 0 <;> by_cases h₂ : n < 0 <;> simp [h₁, h₂, neg_div, div_neg]

theorem abs_div_sub_le (hp : 1 ≤ p) (x : Approx p) {y : Approx p} (hy : y.mant ≠ 0) :
    |(x / y).toReal - x.toReal / y.toReal| ≤ ulp p * |x.toReal / y.toReal| := by
  change |(div x y).toReal - _| ≤ _
  rw [div]
  refine abs_toReal_round_sub_le_of_near hp ?_
  set a := x.mant.natAbs with ha
  set b := y.mant.natAbs with hb
  set s := p + 2 + bitLength b - bitLength a with hs
  have hb0 : 0 < b := Int.natAbs_pos.2 hy
  have hb' : (0 : ℝ) < b := by exact_mod_cast hb0
  have hsticky := abs_sticky_quotient_sub_le (n := a <<< s) hb0
  set t : ℤ := 2 * (a <<< s / b : ℕ) + (if a <<< s % b = 0 then 0 else 1) with ht
  -- The quotient of the integers, scaled back, is the quotient of the absolute values.
  set v : ℝ := 2 * ((a <<< s : ℕ) / b) with hv
  have hscale : v * 2 ^ (x.exp - y.exp - s - 1) = a / b * 2 ^ (x.exp - y.exp) := by
    rw [hv, Nat.shiftLeft_eq, zpow_sub₀ two_ne_zero, zpow_sub₀ two_ne_zero (x.exp - y.exp), zpow_natCast, zpow_one]
    push_cast
    field_simp
  obtain ⟨σ, hσ, hquot, hif⟩ := exists_quotient_sign x.mant y.mant t
  have hexact : x.toReal / y.toReal = σ * (v * 2 ^ (x.exp - y.exp - s - 1)) := by
    rw [hscale, toReal_eq, toReal_eq, mul_div_mul_comm, hquot, ← zpow_sub₀ two_ne_zero, mul_assoc]
  rw [hif, hexact, show σ * t * 2 ^ (x.exp - y.exp - s - 1) - σ * (v * 2 ^ (x.exp - y.exp - s - 1)) =
    σ * ((t - v) * 2 ^ (x.exp - y.exp - s - 1)) by ring, abs_mul, hσ, one_mul, abs_mul σ, hσ, one_mul, abs_mul,
    abs_mul, ← mul_assoc]
  refine mul_le_mul_of_nonneg_right ?_ (abs_nonneg _)
  by_cases hx : x.mant = 0
  · have ha0 : a = 0 := by simp [ha, hx]
    have hv0 : v = 0 := by simp [hv, ha0]
    have ht0 : t = 0 := by simp [ht, ha0]
    simp [hv0, ht0]
  · have hlarge : (2 : ℝ) ^ (p + 1) ≤ |v| := by
      have := two_pow_mul_le_shifted (p := p) (b := b) (Int.natAbs_ne_zero.2 hx) hs.ge
      have hquot : (2 : ℝ) ^ (p + 1) ≤ (a <<< s : ℕ) / b := by
        rw [le_div_iff₀ hb', Nat.shiftLeft_eq]
        exact_mod_cast this
      rw [abs_of_nonneg (by positivity), hv]
      linarith [show (0 : ℝ) ≤ 2 ^ (p + 1) by positivity]
    exact hsticky.trans (one_le_ulp_div_four_mul hlarge)

theorem abs_divInt_sub_le (hp : 1 ≤ p) (x : Approx p) {n : ℤ} (hn : n ≠ 0) :
    |(x.divInt n).toReal - x.toReal / n| ≤ ulp p * |x.toReal / n| := by
  have := abs_div_sub_le hp x (y := ⟨n, 0⟩) hn
  rwa [toReal_mk n, zpow_zero, mul_one] at this

theorem abs_sqrt_sub_le (hp : 1 ≤ p) (x : Approx p) : |x.sqrt.toReal - √x.toReal| ≤ ulp p * √x.toReal := by
  have hpos := ulp_pos p
  rw [sqrt]
  split
  · next h =>
    have : x.toReal ≤ 0 := not_lt.1 fun h' => absurd ((toReal_pos_iff x).1 h') (not_lt.2 h)
    simp [Real.sqrt_eq_zero_of_nonpos this]
  · next hmant =>
    have hx : 0 < x.mant := not_le.1 hmant
    set a := x.mant.natAbs with ha
    have haz : (x.mant : ℝ) = a := by rw [ha, Nat.cast_natAbs, abs_of_pos hx]
    dsimp only
    -- The shift makes the exponent even and the root long enough.
    obtain ⟨s, hs, hlong, h, heven⟩ : ∃ s, (if (x.exp - ((2 * p + 4 - bitLength a : ℕ) : ℤ)) % 2 = 0
        then 2 * p + 4 - bitLength a else 2 * p + 4 - bitLength a + 1) = s ∧ 2 * p + 4 - bitLength a ≤ s ∧
        ∃ h, x.exp - s = 2 * h := by
      refine ⟨_, rfl, by split <;> omega, ?_⟩
      split
      · next h => exact ⟨(x.exp - ((2 * p + 4 - bitLength a : ℕ) : ℤ)) / 2, by omega⟩
      · next h => exact ⟨(x.exp - ((2 * p + 4 - bitLength a : ℕ) : ℤ) - 1) / 2, by push_cast; omega⟩
    rw [hs]
    have hroot : √x.toReal = 2 * √(a <<< s : ℕ) * 2 ^ ((x.exp - s) / 2 - 1) := by
      rw [toReal_eq, haz, show x.exp = s + (h + h) by omega, show (s + (h + h) - (s : ℤ)) / 2 - 1 = h - 1 by omega,
        zpow_add₀ two_ne_zero, zpow_natCast, ← mul_assoc, zpow_add₀ two_ne_zero, Real.sqrt_mul (by positivity),
        Real.sqrt_mul_self (by positivity), Nat.shiftLeft_eq, zpow_sub₀ two_ne_zero, zpow_one]
      push_cast
      ring
    have hlarge : (2 : ℝ) ^ (p + 1) ≤ 2 * √(a <<< s : ℕ) := by
      have hshift := two_pow_mul_le_shifted (p := 2 * p + 1) (a := a) (b := 1) (s := s) (Int.natAbs_ne_zero.2 hx.ne')
        (by rw [show bitLength 1 = 1 from rfl]; omega)
      have hsq : (2 : ℝ) ^ (p + 1) ≤ √(a <<< s : ℕ) := by
        refine Real.le_sqrt_of_sq_le ?_
        rw [Nat.shiftLeft_eq, ← pow_mul]
        rw [mul_one] at hshift
        exact_mod_cast (Nat.pow_le_pow_right (by norm_num) (by omega)).trans hshift
      have : (0 : ℝ) ≤ 2 ^ (p + 1) := by positivity
      linarith
    have hnear := abs_sticky_root_sub_le (a <<< s)
    have := abs_toReal_round_sub_le_of_near hp (m := 2 * (natRoot (a <<< s) : ℕ) +
      (if natRoot (a <<< s) * natRoot (a <<< s) = a <<< s then 0 else 1)) (e := (x.exp - s) / 2 - 1) (c := √x.toReal) ?_
    · rwa [abs_of_nonneg (Real.sqrt_nonneg x.toReal)] at this
    · rw [hroot, ← sub_mul, abs_mul, abs_mul, ← mul_assoc]
      refine mul_le_mul_of_nonneg_right (hnear.trans ?_) (abs_nonneg _)
      rw [abs_of_nonneg (by positivity)]
      exact one_le_ulp_div_four_mul hlarge

/-! ### Results that are exact -/

/-- A number that lies within half a unit of one that can be represented is rounded to that. -/
theorem toReal_round_eq {n s c : ℕ} (hlen : bitLength n = p + s) (h : 2 * |(c : ℤ) * 2 ^ s - n| < 2 ^ s) (e : ℤ) :
    (round p n e).toReal = c * 2 ^ s * 2 ^ e := by
  obtain rfl | hs := Nat.eq_zero_or_pos s
  · have hc : (c : ℤ) = n := by
      rw [pow_zero, mul_one] at h
      have := abs_lt.1 (by omega : |(c : ℤ) - n| < 1)
      omega
    rw [round_of_bitLength_le e (by rw [Int.natAbs_natCast]; omega), ← hc, pow_zero, mul_one, Int.cast_natCast]
  · rw [round, Int.natAbs_natCast, hlen]
    dsimp only
    rw [if_neg (by omega), if_neg (by omega), show p + s - p = s by omega, roundShift_eq_of_near h,
      if_neg (by omega), toReal_mk, zpow_add₀ two_ne_zero, zpow_natCast, Int.cast_natCast]
    ring

theorem toReal_round_two_pow (hp : 1 ≤ p) (k : ℕ) (e : ℤ) :
    (round p ((2 ^ k : ℕ) : ℤ) e).toReal = 2 ^ k * 2 ^ e := by
  have hlen : bitLength (2 ^ k) = k + 1 := bitLength_eq_succ_iff.2 ⟨le_rfl, Nat.pow_lt_pow_succ (by norm_num)⟩
  obtain hshort | hlong := le_or_gt (k + 1) p
  · rw [round_of_bitLength_le e (by rwa [Int.natAbs_natCast, hlen])]
    push_cast
    rfl
  · obtain ⟨s, hs⟩ : ∃ s, k = (p - 1) + s := ⟨k - (p - 1), by omega⟩
    rw [toReal_round_eq (s := s) (c := 2 ^ (p - 1)) (by omega) (by
      rw [hs, pow_add]
      push_cast
      rw [sub_self]
      positivity), hs, pow_add]
    push_cast
    rfl

/-- A power of two less a number too small to matter is rounded to the power. -/
theorem toReal_round_two_pow_sub {d s : ℕ} (hd : 0 < d) (hs : d < 2 ^ s) (e : ℤ) :
    (round p (2 ^ (p + s + 1) - d) e).toReal = 2 ^ (p + s + 1) * 2 ^ e := by
  have hpow : 2 ^ s ≤ 2 ^ (p + s) := Nat.pow_le_pow_right (by norm_num) (by omega)
  have hsucc : 2 ^ (p + s + 1) = 2 * 2 ^ (p + s) := pow_succ' 2 (p + s)
  have hlen : bitLength (2 ^ (p + s + 1) - d) = p + s + 1 := bitLength_eq_succ_iff.2 ⟨by omega, by omega⟩
  have hcast : ((2 : ℤ) ^ (p + s + 1) - d) = (2 ^ (p + s + 1) - d : ℕ) := by
    rw [Nat.cast_sub (by omega)]
    push_cast
    rfl
  rw [hcast, toReal_round_eq (s := s + 1) (c := 2 ^ p) (hlen.trans (add_assoc _ _ _)) ?_]
  · push_cast
    ring
  · have hd' : (d : ℤ) < 2 ^ s := by exact_mod_cast hs
    rw [← hcast]
    push_cast
    rw [← pow_add, add_assoc, sub_sub_cancel, Nat.abs_cast, pow_succ' (2 : ℤ) s]
    linarith

/-- A number below a quarter of a unit in the last place does not count against one. -/
theorem toReal_one_sub {h : Approx p} (h0 : 0 ≤ h.toReal) (hsmall : h.toReal < ulp p / 4) : (1 - h).toReal = 1 := by
  have hulp : ulp p / 4 = 2 ^ (-(p + 1 : ℤ)) := by
    rw [ulp_eq, show (4 : ℝ) = 2 ^ (2 : ℤ) by norm_num, ← zpow_sub₀ two_ne_zero]
    congr 1
    ring
  rw [hulp] at hsmall
  obtain ⟨m, e⟩ := h
  rw [toReal_mk] at h0 hsmall
  change (add ⟨1, 0⟩ ⟨-m, e⟩).toReal = 1
  rw [add, if_neg one_ne_zero]
  split
  · exact toReal_one
  · next hmant =>
    have hm0 : 0 ≤ m := by
      by_contra hneg
      have := (toReal_neg_iff (⟨m, e⟩ : Approx p)).2 (not_le.1 hneg)
      rw [toReal_mk] at this
      linarith
    lift m to ℕ using hm0
    have hm : 0 < m := by
      dsimp only at hmant
      omega
    -- The number is `m / 2 ^ (p + s + 1)`, and `m` is less than `2 ^ s`.
    have hexp : e < -(p + 1 : ℤ) := by
      refine (zpow_lt_zpow_iff_right₀ one_lt_two).1 (lt_of_le_of_lt ?_ hsmall)
      exact le_mul_of_one_le_left (by positivity) (by exact_mod_cast hm)
    obtain ⟨s, rfl⟩ : ∃ s : ℕ, e = -((p + s + 1 : ℕ) : ℤ) := ⟨(-(p + 1 : ℤ) - e).toNat, by omega⟩
    have hlt : m < 2 ^ s := by
      rw [← lt_div_iff₀ (by positivity), ← zpow_sub₀ two_ne_zero,
        show -(p + 1 : ℤ) - -((p + s + 1 : ℕ) : ℤ) = s by push_cast; ring, zpow_natCast] at hsmall
      exact_mod_cast hsmall
    dsimp only
    rw [if_pos (by omega), addOrdered]
    dsimp only
    split
    · have := toReal_round_two_pow_sub (p := p) (d := 1) (s := 1) one_pos (by norm_num) (-((p + 2 : ℕ) : ℤ))
      rw [zpow_neg, zpow_natCast, mul_inv_cancel₀ (by positivity)] at this
      rwa [Int.sign_neg, Int.sign_natCast_of_ne_zero hm.ne', one_mul, twoPow_eq, zero_sub, ← sub_eq_add_neg,
        Nat.cast_pow, Nat.cast_ofNat]
    · have := toReal_round_two_pow_sub (p := p) hm hlt (-((p + s + 1 : ℕ) : ℤ))
      rw [zpow_neg, zpow_natCast, mul_inv_cancel₀ (by positivity)] at this
      rwa [one_mul, twoPow_eq, zero_sub, neg_neg, Int.toNat_natCast, ← sub_eq_add_neg, Nat.cast_pow, Nat.cast_ofNat]

theorem toReal_mul_self_of_eq_one (hp : 1 ≤ p) {x : Approx p} (h : x.toReal = 1) : (x * x).toReal = 1 := by
  obtain ⟨m, e⟩ := x
  have hm0 : 0 < m := (toReal_pos_iff ⟨m, e⟩).1 (h ▸ one_pos)
  lift m to ℕ using hm0.le
  have hm : (m : ℝ) = 2 ^ (-e) := by
    rw [zpow_neg]
    exact eq_inv_of_mul_eq_one_left h
  obtain hneg | ⟨k, rfl⟩ : 0 < e ∨ ∃ k : ℕ, e = -(k : ℤ) := by
    obtain h | h := lt_or_ge 0 e
    · exact .inl h
    · exact .inr ⟨(-e).toNat, by omega⟩
  · have hlt : (m : ℝ) < 1 := hm ▸ zpow_lt_one_of_neg₀ one_lt_two (by omega)
    have : m < 1 := by exact_mod_cast hlt
    omega
  · rw [neg_neg, zpow_natCast] at hm
    obtain rfl : m = 2 ^ k := by exact_mod_cast hm
    change (round p (((2 ^ k : ℕ) : ℤ) * ((2 ^ k : ℕ) : ℤ)) (-(k : ℤ) + -(k : ℤ))).toReal = 1
    rw [← Nat.cast_mul, ← pow_add, toReal_round_two_pow hp, zpow_add₀ two_ne_zero, zpow_neg, zpow_natCast, pow_add]
    field_simp

/-! ### Comparisons and integer parts are exact -/

theorem sign_sub_eq (hp : 2 ≤ p) (x y : Approx p) : (x - y).sign = compare x.toReal y.toReal := by
  have herr := abs_le.1 (abs_sub_sub_le (by omega) x y)
  have hulp := ulp_le_half hp
  have hpos := ulp_pos p
  rw [sign]
  obtain h | h | h := lt_trichotomy x.toReal y.toReal
  · rw [compare_lt_iff_lt.2 h, compare_lt_iff_lt, ← toReal_neg_iff]
    rw [abs_of_neg (sub_neg.2 h)] at herr
    nlinarith [herr.2]
  · rw [compare_eq_iff_eq.2 h, compare_eq_iff_eq, ← toReal_eq_zero_iff]
    rw [h, sub_self, abs_zero, mul_zero, neg_zero] at herr
    linarith [herr.1, herr.2]
  · rw [compare_gt_iff_gt.2 h, compare_gt_iff_gt, ← toReal_pos_iff]
    rw [abs_of_pos (sub_pos.2 h)] at herr
    nlinarith [herr.1]

theorem order_eq (hp : 2 ≤ p) (x y : Approx p) : x.order y = compare x.toReal y.toReal := sign_sub_eq hp x y

theorem order_eq_lt_iff (hp : 2 ≤ p) (x y : Approx p) : x.order y = .lt ↔ x.toReal < y.toReal := by
  rw [order_eq hp, compare_lt_iff_lt]

theorem floorShift_eq (m : ℤ) (s : ℕ) : floorShift m s = ⌊(m : ℝ) * 2 ^ (-(s : ℤ))⌋ := by
  have hpow : (0 : ℝ) < 2 ^ s := by positivity
  rw [floorShift, Int.fdiv_eq_ediv_of_nonneg _ (by positivity), eq_comm, Int.floor_eq_iff, zpow_neg, zpow_natCast,
    ← div_eq_mul_inv, le_div_iff₀ hpow, div_lt_iff₀ hpow, twoPow_eq]
  have hpos : (0 : ℤ) < (2 ^ s : ℕ) := by positivity
  have hle := Int.ediv_mul_le m hpos.ne'
  have hlt := Int.lt_ediv_add_one_mul_self m hpos
  constructor
  · exact_mod_cast hle
  · exact_mod_cast hlt

theorem toReal_of_exp_nonneg {x : Approx p} (h : 0 ≤ x.exp) :
    x.toReal = ((x.mant * 2 ^ x.exp.toNat : ℤ) : ℝ) := by
  obtain ⟨n, hn⟩ := Int.eq_ofNat_of_zero_le h
  simp [toReal_eq, hn]

theorem floor_eq (x : Approx p) : x.floor = ⌊x.toReal⌋ := by
  rw [floor]
  split
  · next h =>
    rw [toReal_of_exp_nonneg h, Int.floor_intCast, twoPow_eq]
    push_cast
    rfl
  · next h => rw [floorShift_eq, show -((-x.exp).toNat : ℤ) = x.exp by omega, toReal_eq]

theorem ceil_eq (x : Approx p) : x.ceil = ⌈x.toReal⌉ := by
  rw [ceil, floor_eq, toReal_neg, Int.floor_neg, neg_neg]

theorem nearest_eq (x : Approx p) : x.nearest = ⌊x.toReal + 1 / 2⌋ := by
  rw [nearest]
  split
  · next h =>
    rw [toReal_of_exp_nonneg h, Int.floor_intCast_add, twoPow_eq]
    norm_num
  · next h =>
    obtain ⟨s, hs⟩ : ∃ s : ℕ, x.exp = -((s + 1 : ℕ) : ℤ) := ⟨(-x.exp).toNat - 1, by omega⟩
    dsimp only
    rw [floorShift_eq, toReal_eq, hs, show (-(-((s + 1 : ℕ) : ℤ))).toNat = s + 1 by omega, Nat.add_sub_cancel, twoPow_eq]
    congr 1
    push_cast
    rw [add_mul, zpow_neg, zpow_add₀ two_ne_zero, zpow_natCast, zpow_one]
    field_simp

end Approx

end CliffordT

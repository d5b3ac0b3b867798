import CliffordT.Proofs.Working.Rounding
import CliffordT.Working.Trig

/-!
Errors counted in roundings.

A computed number is near an exact one up to `k` roundings if it is off by at most `(1 + ulp)^k - 1` times a bound
for the sizes of all numbers that went into it. The count adds up along a computation and the bound is formed by the
same operations without their signs, so every operation has a rule of its own and no error has to be estimated
twice.
-/

namespace CliffordT

/-- The relative error that `k` roundings can add up to. -/
noncomputable def drift (p k : ℕ) : ℝ := (1 + ulp p) ^ k - 1

@[simp] theorem drift_zero (p : ℕ) : drift p 0 = 0 := by simp [drift]

theorem drift_add (p j k : ℕ) : drift p (j + k) = drift p j + drift p k + drift p j * drift p k := by
  simp only [drift, pow_add]
  ring

theorem drift_one (p : ℕ) : drift p 1 = ulp p := by simp [drift]

theorem drift_succ (p k : ℕ) : drift p (k + 1) = drift p k + ulp p * (1 + drift p k) := by
  rw [drift_add, drift_one]
  ring

theorem mul_ulp_le_drift (p k : ℕ) : k * ulp p ≤ drift p k := by
  have := one_add_mul_le_pow (by linarith [ulp_pos p] : -2 ≤ ulp p) k
  rw [drift]
  linarith

theorem drift_nonneg (p k : ℕ) : 0 ≤ drift p k := by
  have := mul_ulp_le_drift p k
  have := ulp_pos p
  exact le_trans (by positivity) (mul_ulp_le_drift p k)

theorem drift_mono (p : ℕ) {j k : ℕ} (h : j ≤ k) : drift p j ≤ drift p k := by
  have := pow_le_pow_right₀ (by linarith [ulp_pos p] : 1 ≤ 1 + ulp p) h
  rw [drift, drift]
  linarith

/-- As long as the roundings add up to little, they add up to no more than twice their number. -/
theorem drift_le {p k : ℕ} (h : 2 * k * ulp p ≤ 1) : drift p k ≤ 2 * k * ulp p := by
  have hpos := ulp_pos p
  induction k with
  | zero => simp
  | succ k ih =>
    push_cast at h ⊢
    have hk : 2 * k * ulp p ≤ 1 := by linarith
    have := ih hk
    rw [drift_succ]
    have hmul : ulp p * (1 + drift p k) ≤ ulp p * 2 := mul_le_mul_of_nonneg_left (by linarith) hpos.le
    linarith

namespace Approx

variable {p : ℕ}

/-- A number that is off by at most `k` roundings of numbers that add up to at most `m` in size. -/
structure Near (k : ℕ) (m : ℝ) (x : Approx p) (r : ℝ) : Prop where
  error : |x.toReal - r| ≤ drift p k * m
  size : |r| ≤ m

namespace Near

variable {j k : ℕ} {l m r s : ℝ} {x y : Approx p}

theorem nonneg (h : Near k m x r) : 0 ≤ m := (abs_nonneg r).trans h.size

theorem mono (h : Near j l x r) (hk : j ≤ k) (hm : l ≤ m) : Near k m x r where
  error := h.error.trans (mul_le_mul (drift_mono p hk) hm h.nonneg (drift_nonneg p k))
  size := h.size.trans hm

theorem exact (x : Approx p) : Near 0 |x.toReal| x x.toReal where
  error := by simp
  size := le_rfl

theorem abs_le (h : Near k m x r) : |x.toReal| ≤ (1 + drift p k) * m := by
  linarith [h.error, h.size, abs_sub_abs_le_abs_sub x.toReal r]

/-- One more rounding, of a number that is near already. -/
theorem of_rounded {a : ℝ} (h : |x.toReal - a| ≤ ulp p * |a|) (herror : |a - r| ≤ drift p k * m) (hsize : |r| ≤ m) :
    Near (k + 1) m x r where
  error := by
    have htri := abs_sub_le x.toReal a r
    have ha : |a| ≤ (1 + drift p k) * m := by linarith [abs_sub_abs_le_abs_sub a r]
    have := mul_le_mul_of_nonneg_left ha (ulp_pos p).le
    rw [drift_succ]
    linarith
  size := hsize

theorem ofInt (n : ℤ) : Near 1 |(n : ℝ)| (ofInt n : Approx p) n where
  error := by
    rw [drift_one]
    exact abs_ofInt_sub_le n
  size := le_rfl

theorem neg (h : Near k m x r) : Near k m (-x) (-r) where
  error := by
    rw [toReal_neg, ← neg_sub_neg, neg_neg, neg_neg, abs_sub_comm]
    exact h.error
  size := by
    rw [abs_neg]
    exact h.size

theorem add (hp : 1 ≤ p) (hx : Near k l x r) (hy : Near k m y s) : Near (k + 1) (l + m) (x + y) (r + s) := by
  refine of_rounded (abs_add_sub_le hp x y) ?_ ((abs_add_le r s).trans (add_le_add hx.size hy.size))
  rw [show x.toReal + y.toReal - (r + s) = (x.toReal - r) + (y.toReal - s) by ring, mul_add]
  exact (abs_add_le _ _).trans (add_le_add hx.error hy.error)

theorem sub (hp : 1 ≤ p) (hx : Near k l x r) (hy : Near k m y s) : Near (k + 1) (l + m) (x - y) (r - s) := by
  have := add hp hx hy.neg
  rwa [← sub_eq_add_neg r s] at this

theorem mul (hx : Near j l x r) (hy : Near k m y s) : Near (j + k + 1) (l * m) (x * y) (r * s) := by
  refine of_rounded (abs_mul_sub_le x y) ?_ ?_
  · have hfirst : |x.toReal| * |y.toReal - s| ≤ (1 + drift p j) * l * (drift p k * m) :=
      mul_le_mul hx.abs_le hy.error (abs_nonneg _)
        (mul_nonneg (by linarith [drift_nonneg p j]) hx.nonneg)
    have hsecond : |x.toReal - r| * |s| ≤ drift p j * l * m :=
      mul_le_mul hx.error hy.size (abs_nonneg _) (mul_nonneg (drift_nonneg p j) hx.nonneg)
    rw [show x.toReal * y.toReal - r * s = x.toReal * (y.toReal - s) + (x.toReal - r) * s by ring, drift_add]
    refine (abs_add_le _ _).trans ?_
    rw [abs_mul, abs_mul]
    linarith
  · rw [abs_mul]
    exact mul_le_mul hx.size hy.size (abs_nonneg s) hx.nonneg

/-- A divisor that is off by at most half its size counts twice. -/
theorem div (hp : 1 ≤ p) (hx : Near j l x r) (hy : Near k |s| y s) (hs : s ≠ 0) (hk : drift p k ≤ 1 / 2) :
    Near (j + 2 * k + 1) (l / |s|) (x / y) (r / s) := by
  have hspos : 0 < |s| := abs_pos.2 hs
  have hylow : (1 - drift p k) * |s| ≤ |y.toReal| := by
    have := abs_sub_abs_le_abs_sub s y.toReal
    rw [abs_sub_comm] at this
    linarith [hy.error]
  have hypos : 0 < |y.toReal| := lt_of_lt_of_le (mul_pos (by linarith) hspos) hylow
  have hy0 : y.toReal ≠ 0 := abs_pos.1 hypos
  refine of_rounded (abs_div_sub_le hp x fun h0 => hy0 ((toReal_eq_zero_iff y).2 h0)) ?_ ?_
  · set a := drift p j with ha
    set b := drift p k with hb
    have ha0 : 0 ≤ a := drift_nonneg p j
    have hb0 : 0 ≤ b := drift_nonneg p k
    have hdrift : drift p (j + 2 * k) = (1 + a) * (1 + b) ^ 2 - 1 := by
      rw [two_mul, drift_add, drift_add, ← ha, ← hb]
      ring
    have hnum : |x.toReal * s - r * y.toReal| ≤ (a + b) * (l * |s|) := by
      rw [show x.toReal * s - r * y.toReal = (x.toReal - r) * s - r * (y.toReal - s) by ring]
      refine (abs_sub _ _).trans ?_
      rw [abs_mul, abs_mul]
      have h₁ := mul_le_mul_of_nonneg_right hx.error (abs_nonneg s)
      have h₂ := mul_le_mul hx.size hy.error (abs_nonneg _) hx.nonneg
      linarith
    -- The divisor may be too small by the factor `1 - b`, for which the second `1 + b` makes up as long as `b` is at most a half.
    have hfactor : a + b ≤ ((1 + a) * (1 + b) ^ 2 - 1) * (1 - b) := by
      have h₁ : 0 ≤ (1 + a) * (b * (1 - b - b ^ 2)) :=
        mul_nonneg (by linarith) (mul_nonneg hb0 (by nlinarith))
      linarith
    have hD : 0 ≤ (1 + a) * (1 + b) ^ 2 - 1 := hdrift ▸ drift_nonneg p (j + 2 * k)
    rw [hdrift, div_sub_div _ _ hy0 hs, abs_div, abs_mul, div_le_iff₀ (by positivity),
      show x.toReal * s - y.toReal * r = x.toReal * s - r * y.toReal by ring]
    calc |x.toReal * s - r * y.toReal| ≤ (a + b) * (l * |s|) := hnum
      _ ≤ ((1 + a) * (1 + b) ^ 2 - 1) * (1 - b) * (l * |s|) :=
        mul_le_mul_of_nonneg_right hfactor (mul_nonneg hx.nonneg hspos.le)
      _ = ((1 + a) * (1 + b) ^ 2 - 1) * l * ((1 - b) * |s|) := by ring
      _ ≤ ((1 + a) * (1 + b) ^ 2 - 1) * l * |y.toReal| :=
        mul_le_mul_of_nonneg_left hylow (mul_nonneg hD hx.nonneg)
      _ = ((1 + a) * (1 + b) ^ 2 - 1) * (l / |s|) * (|y.toReal| * |s|) := by
        field_simp
  · rw [abs_div]
    exact div_le_div_of_nonneg_right hx.size hspos.le

theorem scale (h : Near k m x r) (n : ℤ) : Near (k + 1) (m * |(n : ℝ)|) (x.scale n) (r * n) := by
  refine of_rounded (abs_scale_sub_le x n) ?_ ?_
  · rw [← sub_mul, abs_mul, ← mul_assoc]
    exact mul_le_mul_of_nonneg_right h.error (abs_nonneg _)
  · rw [abs_mul]
    exact mul_le_mul_of_nonneg_right h.size (abs_nonneg _)

theorem divInt (hp : 1 ≤ p) (h : Near k m x r) {n : ℤ} (hn : n ≠ 0) :
    Near (k + 1) (m / |(n : ℝ)|) (x.divInt n) (r / n) := by
  refine of_rounded (abs_divInt_sub_le hp x hn) ?_ ?_
  · rw [← sub_div, abs_div, ← mul_div_assoc]
    exact div_le_div_of_nonneg_right h.error (abs_nonneg _)
  · rw [abs_div]
    exact div_le_div_of_nonneg_right h.size (abs_nonneg _)

theorem shift (h : Near k m x r) (e : ℤ) : Near k (m * 2 ^ e) (x.shift e) (r * 2 ^ e) where
  error := by
    rw [toReal_shift, ← sub_mul, abs_mul, abs_zpow, abs_two, ← mul_assoc]
    exact mul_le_mul_of_nonneg_right h.error (by positivity)
  size := by
    rw [abs_mul, abs_zpow, abs_two]
    exact mul_le_mul_of_nonneg_right h.size (by positivity)

theorem rootTwo (hp : 1 ≤ p) : Near 1 √2 (rootTwo : Approx p) √2 where
  error := by
    have := abs_sqrt_sub_le hp ⟨2, 0⟩
    rw [drift_one]
    rwa [toReal_mk 2, zpow_zero, mul_one] at this
  size := (abs_of_nonneg (Real.sqrt_nonneg 2)).le

theorem invRootTwo (hp : 1 ≤ p) : Near 1 (√2 / 2) (invRootTwo : Approx p) (√2 / 2) := by
  have := (rootTwo hp).shift (-1)
  rwa [zpow_neg_one, ← div_eq_mul_inv] at this

end Near

end Approx

end CliffordT

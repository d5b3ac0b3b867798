import CliffordT.Proofs.Grid.Candidates
import CliffordT.Proofs.Plane.Ellipse
import CliffordT.Proofs.Plane.Reduction
import Mathlib.Analysis.SpecialFunctions.Log.Base

/-!
The choice of a step, without rounding.

Once a pair of forms is shifted, the choice depends on the two off-diagonal entries `b`, `β` and on the two biases `z`, `ζ`,
which differ by at most one. If `β` is not negative and `z + ζ` is not either, the conditions of the steps leave no gap.
-/

namespace CliffordT

/-- The unit `λ = 1 + √2`. -/
noncomputable def ExactReal.lambda : ℝ := 1 + √(2 : ℕ)

theorem ExactReal.lambda_eq : lambda = 1 + √2 := by rw [lambda, Nat.cast_ofNat]

namespace ExactStep

open ExactReal

/-- Real numbers, for choosing a step. -/
noncomputable scoped instance stepNumber : StepNumber ℝ where
  ofInt n := n
  tenths n := n / (10 : ℕ)
  half x := x / (2 : ℕ)
  overRootTwo x := x / √(2 : ℕ)
  lambdaPower x := lambda ^ x
  less x y := decide (x < y)
  atMost x y := decide (x ≤ y)
  smaller := min
  floorWord x := ⌊x⌋
  floor x := .ok ⌊x⌋

end ExactStep

open ExactReal
open scoped ExactStep

namespace Shape

/-- What a step knows of a shifted pair of shapes. -/
inductive Chosen (b beta z zeta : ℝ) : Elementary → Prop
  | Z (hbeta : beta < 0) : Chosen b beta z zeta .Z
  | X (hbeta : 0 ≤ beta) (hsum : z + zeta < 0) : Chosen b beta z zeta .X
  | R (hbeta : 0 ≤ beta) (hz : |z| ≤ 8 / 10) (hzeta : |zeta| ≤ 8 / 10) : Chosen b beta z zeta .R
  | K (hbeta : 0 ≤ beta) (hb : 0 ≤ b) (hz : z ∈ Set.Icc (-2 / 10) (3 / 10)) (hzeta : zeta ∈ Set.Icc (8 / 10) (13 / 10)) :
    Chosen b beta z zeta .K
  | KBullet (hbeta : 0 ≤ beta) (hb : 0 ≤ b) (hz : z ∈ Set.Icc (8 / 10) (13 / 10))
    (hzeta : zeta ∈ Set.Icc (-2 / 10) (3 / 10)) : Chosen b beta z zeta .KBullet
  | A (hbeta : 0 ≤ beta) (hb : 0 ≤ b) (hmin : 3 / 10 ≤ min z zeta) :
    Chosen b beta z zeta (.A (max ⌊lambda ^ min z zeta / 2⌋ 1))
  | B (hbeta : 0 ≤ beta) (hb : b < 0) (hmin : -2 / 10 ≤ min z zeta) :
    Chosen b beta z zeta (.B (max ⌊lambda ^ min z zeta / √2⌋ 1))

variable {b beta z zeta : ℝ}

theorem atMost_iff (x y : ℝ) : StepNumber.atMost x y = true ↔ x ≤ y := decide_eq_true_iff

theorem less_iff (x y : ℝ) : StepNumber.less x y = true ↔ x < y := decide_eq_true_iff

theorem within_iff (x : ℝ) (lo hi : ℤ) : within x lo hi = true ↔ (lo : ℝ) / 10 ≤ x ∧ x ≤ (hi : ℝ) / 10 := by
  rw [within, Bool.and_eq_true, atMost_iff, atMost_iff]
  rfl

theorem tenths_eq (n : ℤ) : (StepNumber.tenths n : ℝ) = n / 10 := rfl

/-- A sum that is not negative and a difference of at most one leave no gap between the conditions of the steps. -/
theorem exists_stepFor (b : ℝ) (hbeta : 0 ≤ beta) (hsum : 0 ≤ z + zeta) (hbias : |zeta - z| ≤ 1) :
    ∃ h, stepFor z zeta (decide (b < 0)) = .ok h ∧ Chosen b beta z zeta h := by
  obtain ⟨hlow, hhigh⟩ := abs_le.1 hbias
  have hupright : (within z (-8) 8 && within zeta (-8) 8) = true ↔ |z| ≤ 8 / 10 ∧ |zeta| ≤ 8 / 10 := by
    rw [Bool.and_eq_true, within_iff, within_iff, abs_le, abs_le]
    push_cast
    rw [neg_div]
  by_cases hR : |z| ≤ 8 / 10 ∧ |zeta| ≤ 8 / 10
  · exact ⟨.R, if_pos (hupright.2 hR), .R hbeta hR.1 hR.2⟩
  have hnotR : 8 / 10 < z ∨ 8 / 10 < zeta := by
    by_contra hsmall
    push Not at hsmall
    exact hR ⟨abs_le.2 ⟨by linarith, hsmall.1⟩, abs_le.2 ⟨by linarith, hsmall.2⟩⟩
  rw [stepFor, if_neg (mt hupright.1 hR)]
  simp only [Bool.and_eq_true, atMost_iff, tenths_eq, decide_eq_true_eq]
  push_cast
  by_cases hb : b < 0
  · have hboth : -2 / 10 ≤ z ∧ -2 / 10 ≤ zeta := by rcases hnotR with h | h <;> constructor <;> linarith
    rw [if_pos hb, if_pos hboth]
    exact ⟨_, rfl, .B hbeta hb (le_min hboth.1 hboth.2)⟩
  rw [if_neg hb]
  rw [not_lt] at hb
  by_cases hz : z ≤ 3 / 10
  · have hzeta : 8 / 10 ≤ zeta := (hnotR.resolve_left (by linarith)).le
    rw [if_pos ⟨hz, hzeta⟩]
    exact ⟨.K, rfl, .K hbeta hb ⟨by linarith, hz⟩ ⟨hzeta, by linarith⟩⟩
  rw [if_neg fun h => hz h.1]
  rw [not_le] at hz
  by_cases hzeta : 3 / 10 ≤ zeta
  · rw [if_pos ⟨hz.le, hzeta⟩]
    exact ⟨_, rfl, .A hbeta hb (le_min hz.le hzeta)⟩
  · rw [not_le] at hzeta
    have hz' : 8 / 10 ≤ z := (hnotR.resolve_right (by linarith)).le
    rw [if_neg fun h => not_le.2 hzeta h.2, if_pos ⟨hz', hzeta.le⟩]
    exact ⟨.KBullet, rfl, .KBullet hbeta hb ⟨hz', by linarith⟩ ⟨by linarith, hzeta.le⟩⟩

/-! ### Shifts -/

/-- The sign that a shift gives to the second off-diagonal entry. -/
def parity (k : ℤ) : ℝ := if k % 2 = 1 then -1 else 1

theorem parity_eq_zpow (k : ℤ) : parity k = (-1) ^ k := by
  rw [parity]
  split
  · next h => rw [Odd.neg_one_zpow (Int.odd_iff.2 h)]
  · next h => rw [Even.neg_one_zpow (Int.even_iff.2 (by omega))]

theorem parity_mul_self (k : ℤ) : parity k * parity k = 1 := by
  rw [parity]
  split <;> norm_num

theorem shiftFor_eq (s t : Shape ℝ) : shiftFor s t = if 1 < |t.z - s.z| then ⌊(1 - (t.z - s.z)) / 2⌋ else 0 := by
  have hbias : (StepNumber.less (StepNumber.ofInt 1) (t.z - s.z) || StepNumber.less (t.z - s.z) (StepNumber.ofInt (-1))) = true ↔
      1 < |t.z - s.z| := by
    rw [Bool.or_eq_true, less_iff, less_iff, lt_abs]
    exact or_congr (by rw [show (StepNumber.ofInt 1 : ℝ) = 1 from Int.cast_one])
      (by rw [show (StepNumber.ofInt (-1) : ℝ) = -1 from (Int.cast_neg 1).trans (congrArg _ Int.cast_one), lt_neg])
  have hone : (StepNumber.ofInt 1 : ℝ) = 1 := Int.cast_one
  by_cases h : 1 < |t.z - s.z|
  · rw [if_pos h, shiftFor, ← hone]
    exact if_pos (hbias.2 h)
  · rw [if_neg h]
    exact if_neg (mt hbias.1 h)

/-- After the shift the biases differ by at most one. -/
theorem abs_bias_le (s t : Shape ℝ) : |(t.z + (shiftFor s t : ℝ)) - (s.z - (shiftFor s t : ℝ))| ≤ 1 := by
  rw [shiftFor_eq]
  split
  · have hlow := Int.floor_le ((1 - (t.z - s.z)) / 2)
    have hhigh := Int.lt_floor_add_one ((1 - (t.z - s.z)) / 2)
    rw [abs_le]
    constructor <;> linarith
  · next h =>
    rw [Int.cast_zero, add_zero, sub_zero]
    exact not_lt.1 h

/-- The shift is a 64-bit word unless the biases are absurdly far apart. -/
theorem shiftFor_mem_word {s t : Shape ℝ} (h : |t.z - s.z| ≤ 2 ^ 64 - 2) :
    -2 ^ 63 ≤ shiftFor s t ∧ shiftFor s t < 2 ^ 63 := by
  rw [shiftFor_eq]
  split
  · obtain ⟨hlow, hhigh⟩ := abs_le.1 h
    rw [Int.le_floor, Int.floor_lt]
    push_cast
    constructor <;> linarith
  · norm_num

/-- The sign of a shape is that of its off-diagonal entry. -/
def Signed (s : Shape ℝ) : Prop := s.sign = compare s.b 0

theorem Signed.lt_iff {s : Shape ℝ} (h : s.Signed) : s.sign = .lt ↔ s.b < 0 := by
  rw [h, compare_lt_iff_lt]

theorem Signed.shifted_lt_iff {t : Shape ℝ} (h : t.Signed) (k : ℤ) :
    (if k % 2 = 1 then t.sign.swap else t.sign) = .lt ↔ parity k * t.b < 0 := by
  rw [parity]
  split
  · rw [h, Ordering.swap_eq_lt, compare_gt_iff_gt]
    constructor <;> intro h <;> linarith
  · rw [h.lt_iff, one_mul]

/-- There is a step for every pair that is not upright. -/
theorem exists_step {s t : Shape ℝ} (hs : s.Signed) (ht : t.Signed) (hskew : 15 < s.b * s.b + t.b * t.b) :
    ∃ h, step? s t = .ok (some (h, shiftFor s t)) ∧
      Chosen s.b (parity (shiftFor s t) * t.b) (s.z - (shiftFor s t : ℝ)) (t.z + (shiftFor s t : ℝ)) h := by
  have hbias := abs_bias_le s t
  have hstop : ¬StepNumber.atMost (skew s t) (StepNumber.ofInt skewLimit) = true := by
    rw [atMost_iff, not_le]
    exact hskew
  rw [step?, if_neg hstop]
  dsimp only
  generalize shiftFor s t = k at *
  by_cases hbeta : parity k * t.b < 0
  · exact ⟨.Z, if_pos ((ht.shifted_lt_iff k).2 hbeta), .Z hbeta⟩
  rw [if_neg (mt (ht.shifted_lt_iff k).1 hbeta)]
  rw [not_lt] at hbeta
  by_cases hsum : s.z - (k : ℝ) + (t.z + (k : ℝ)) < 0
  · refine ⟨.X, if_pos ?_, .X hbeta hsum⟩
    rw [less_iff]
    exact hsum.trans_eq Int.cast_zero.symm
  · obtain ⟨h, hstep, hchosen⟩ := exists_stepFor s.b hbeta (not_lt.1 hsum) hbias
    refine ⟨h, ?_, hchosen⟩
    rw [if_neg]
    · rw [show decide (s.sign = .lt) = decide (s.b < 0) from decide_eq_decide.2 hs.lt_iff]
      exact congrArg (Except.map fun g => some (g, k)) hstep
    · rw [less_iff]
      exact fun h => hsum (h.trans_eq Int.cast_zero)

end Shape

end CliffordT

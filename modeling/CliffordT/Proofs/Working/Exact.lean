import CliffordT.Proofs.Ring.Order
import CliffordT.Proofs.Ring.Parts
import CliffordT.Working.Embedding
import CliffordT.Working.Quotient
import Mathlib.Analysis.SpecialFunctions.Trigonometric.Basic

/-!
The real numbers as scalars, on which every operation is exact.

What is written over any scalars then makes sense for real numbers: comparisons are those of the real numbers, and the scalar
of a ring element or a fraction is its value.
-/

namespace CliffordT

namespace ExactReal

-- the division of the field, also where real numbers are scalars
noncomputable scoped instance division : Div ℝ := DivInvMonoid.toDiv

/-- Real numbers, with operations that round nothing. -/
noncomputable scoped instance scalar : Scalar ℝ where
  ofInt n := n
  scale x n := x * n
  shift x e := x * (2 : ℕ) ^ e
  sqrt := Real.sqrt
  sign x := compare x 0
  order := compare
  rootTwo := √(2 : ℕ)
  invRootTwo := 1 / √(2 : ℕ)
  pi := Real.pi
  sinCos x := (Real.sin x, Real.cos x)

end ExactReal

open scoped ExactReal

namespace Scalar

theorem isZero_real (x : ℝ) : isZero x = true ↔ x = 0 := by
  rw [isZero, decide_eq_true_eq]
  exact compare_eq_iff_eq

theorem isPositive_real (x : ℝ) : isPositive x = true ↔ 0 < x := by
  rw [isPositive, decide_eq_true_eq]
  exact compare_gt_iff_gt

theorem isNegative_real (x : ℝ) : isNegative x = true ↔ x < 0 := by
  rw [isNegative, decide_eq_true_eq]
  exact compare_lt_iff_lt

theorem less_real (x y : ℝ) : less x y = true ↔ x < y := by
  rw [less, decide_eq_true_eq]
  exact compare_lt_iff_lt

theorem atMost_real (x y : ℝ) : atMost x y = true ↔ x ≤ y := by
  rw [atMost, bne_iff_ne, ← not_lt]
  exact not_congr compare_gt_iff_gt

theorem larger_real (x y : ℝ) : larger x y = max x y := by
  rw [larger]
  split
  · next h => exact (max_eq_right ((less_real x y).1 h).le).symm
  · next h => exact (max_eq_left (not_lt.1 (mt (less_real x y).2 h))).symm

theorem smaller_real (x y : ℝ) : smaller x y = min x y := by
  rw [smaller]
  split
  · next h => exact (min_eq_right ((less_real y x).1 h).le).symm
  · next h => exact (min_eq_left (not_lt.1 (mt (less_real y x).2 h))).symm

theorem half_real (x : ℝ) : half x = x / 2 := by
  change x * (2 : ℕ) ^ (-1 : ℤ) = _
  rw [Nat.cast_ofNat, zpow_neg_one, div_eq_mul_inv]

theorem square_real (x : ℝ) : square x = x ^ 2 := (pow_two x).symm

theorem quotient_real (x : ℝ) {y : ℝ} (hy : y ≠ 0) : quotient x y = .ok (x / y) := by
  rw [quotient, if_neg (mt (isZero_real y).1 hy)]

end Scalar

theorem QuadInt.eval_real (x : QuadInt) : (x.eval : ℝ) = realHom x := by
  change (x.a : ℝ) + √(2 : ℕ) * x.b = _
  rw [realHom_apply, Nat.cast_ofNat]
  ring

open Exponent

variable {E : Type} [Exponent E]

theorem QuadFrac.eval_real (x : QuadFrac E) : (x.eval : ℝ) = x.toReal := by
  have hshift : Scalar.shift (x.num.eval : ℝ) (-((load x.exp / 2 : ℕ) : ℤ)) =
      QuadInt.realHom x.num / √2 ^ (2 * (load x.exp / 2)) := by
    change x.num.eval * ((2 : ℕ) : ℝ) ^ (-((load x.exp / 2 : ℕ) : ℤ)) = _
    rw [QuadInt.eval_real, Nat.cast_ofNat, two_zpow_eq_sqrt_pow, div_eq_mul_inv]
  rw [eval, toReal_eq, hshift]
  split
  · next hodd =>
    change QuadInt.realHom x.num / √2 ^ (2 * (load x.exp / 2)) * (1 / √(2 : ℕ)) = _
    rw [Nat.cast_ofNat, div_mul_div_comm, mul_one, ← pow_succ]
    congr 2
    omega
  · next heven => rw [show 2 * (load x.exp / 2) = load x.exp by omega]

theorem CycloFrac.eval_real (u : CycloFrac E) [Stores E (load u.exp + 1)] : (u.eval : ℝ × ℝ) = (u.value.re, u.value.im) := by
  rw [eval, QuadFrac.eval_real, QuadFrac.eval_real, value_re, value_im]

end CliffordT

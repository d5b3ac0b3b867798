import CliffordT.Plane.Interval
import CliffordT.Proofs.Working.Representable
import CliffordT.Working.Instances

/-!
Intervals of numbers of a working precision.

Comparisons are exact, so membership is membership in a real interval. The length and the midpoint are rounded; a
midpoint is a nearest number to the middle, so it lies between the ends, and strictly between them as soon as any number
of the precision does.
-/

namespace CliffordT

namespace Approx

variable {p : ℕ}

theorem less_iff (hp : 2 ≤ p) (x y : Approx p) : Scalar.less x y = true ↔ x.toReal < y.toReal := by
  rw [Scalar.less, decide_eq_true_eq]
  exact order_eq_lt_iff hp x y

theorem atMost_iff (hp : 2 ≤ p) (x y : Approx p) : Scalar.atMost x y = true ↔ x.toReal ≤ y.toReal := by
  rw [Scalar.atMost, bne_iff_ne]
  change x.order y ≠ .gt ↔ _
  rw [order_eq hp, Ne, compare_gt_iff_gt, not_lt]

theorem isNegative_iff (x : Approx p) : Scalar.isNegative x = true ↔ x.toReal < 0 := by
  rw [Scalar.isNegative, decide_eq_true_eq, toReal_neg_iff]
  change compare x.mant 0 = .lt ↔ _
  exact compare_lt_iff_lt

theorem toReal_larger (hp : 2 ≤ p) (x y : Approx p) : (Scalar.larger x y).toReal = max x.toReal y.toReal := by
  rw [Scalar.larger]
  split
  · next h => rw [max_eq_right ((less_iff hp x y).1 h).le]
  · next h => rw [max_eq_left (not_lt.1 (mt (less_iff hp x y).2 h))]

theorem toReal_smaller (hp : 2 ≤ p) (x y : Approx p) : (Scalar.smaller x y).toReal = min x.toReal y.toReal := by
  rw [Scalar.smaller]
  split
  · next h => rw [min_eq_right ((less_iff hp y x).1 h).le]
  · next h => rw [min_eq_left (not_lt.1 (mt (less_iff hp y x).2 h))]

end Approx

namespace Interval

variable {p : ℕ} {i : Interval (Approx p)}

theorem contains_iff (hp : 2 ≤ p) (i : Interval (Approx p)) (x : Approx p) :
    i.contains x = true ↔ i.lo.toReal ≤ x.toReal ∧ x.toReal ≤ i.hi.toReal := by
  rw [contains, Bool.and_eq_true, Approx.atMost_iff hp, Approx.atMost_iff hp]

theorem isEmpty_iff (hp : 2 ≤ p) (i : Interval (Approx p)) : i.isEmpty = true ↔ i.hi.toReal < i.lo.toReal :=
  Approx.less_iff hp _ _

/-- The real numbers between the ends. -/
def toSet (i : Interval (Approx p)) : Set ℝ := Set.Icc i.lo.toReal i.hi.toReal

/-- The ends have significands of the precision. -/
structure Fits (i : Interval (Approx p)) : Prop where
  /-- The lower end. -/
  lo : i.lo.Fits
  /-- The upper end. -/
  hi : i.hi.Fits

theorem fits_ofInt (m n : ℤ) : (⟨Approx.ofInt m, Approx.ofInt n⟩ : Interval (Approx p)).Fits :=
  ⟨Approx.fits_ofInt m, Approx.fits_ofInt n⟩

/-- The ends of a multiple are products. -/
theorem fits_scale (i : Interval (Approx p)) (f : Approx p) : (i.scale f).Fits := by
  rw [scale]
  split
  · exact ⟨Approx.fits_mul i.hi f, Approx.fits_mul i.lo f⟩
  · exact ⟨Approx.fits_mul i.lo f, Approx.fits_mul i.hi f⟩

theorem rounds_width (hp : 1 ≤ p) (h : i.Fits) : Rounds p (i.hi.toReal - i.lo.toReal) i.width.toReal :=
  Approx.rounds_sub hp h.hi h.lo

theorem toReal_midpoint (i : Interval (Approx p)) : i.midpoint.toReal = (i.lo + i.hi).toReal / 2 := by
  change ((i.lo + i.hi).shift (-1)).toReal = _
  rw [Approx.toReal_shift, zpow_neg_one, div_eq_mul_inv]

theorem rounds_midpoint (hp : 1 ≤ p) (h : i.Fits) :
    Rounds p ((i.lo.toReal + i.hi.toReal) / 2) i.midpoint.toReal := by
  have := (Approx.rounds_add hp h.lo h.hi).mul_two_zpow (-1)
  rwa [zpow_neg_one, ← div_eq_mul_inv, ← div_eq_mul_inv, ← toReal_midpoint] at this

theorem midpoint_fits (hp : 1 ≤ p) (h : i.Fits) : i.midpoint.Fits := (rounds_midpoint hp h).representable

theorem Fits.lowerHalf (hp : 1 ≤ p) (h : i.Fits) : i.lowerHalf.Fits := ⟨h.lo, midpoint_fits hp h⟩

theorem Fits.upperHalf (hp : 1 ≤ p) (h : i.Fits) : i.upperHalf.Fits := ⟨midpoint_fits hp h, h.hi⟩

theorem lo_le_midpoint (hp : 1 ≤ p) (h : i.Fits) (hle : i.lo.toReal ≤ i.hi.toReal) :
    i.lo.toReal ≤ i.midpoint.toReal :=
  (Approx.rounds_of_fits hp h.lo).mono hp (rounds_midpoint hp h) (by linarith)

theorem midpoint_le_hi (hp : 1 ≤ p) (h : i.Fits) (hle : i.lo.toReal ≤ i.hi.toReal) :
    i.midpoint.toReal ≤ i.hi.toReal :=
  (rounds_midpoint hp h).mono hp (Approx.rounds_of_fits hp h.hi) (by linarith)

/-- The midpoint lies strictly between the ends if any number of the precision does. -/
theorem midpoint_between (hp : 1 ≤ p) (h : i.Fits) {z : ℝ} (hz : Representable p z) (hlo : i.lo.toReal < z)
    (hhi : z < i.hi.toReal) : i.lo.toReal < i.midpoint.toReal ∧ i.midpoint.toReal < i.hi.toReal := by
  have hnear := (rounds_midpoint hp h).nearest hp hz
  have hin : |z - (i.lo.toReal + i.hi.toReal) / 2| < (i.hi.toReal - i.lo.toReal) / 2 :=
    abs_lt.2 ⟨by linarith, by linarith⟩
  have := abs_lt.1 (hnear.trans_lt hin)
  constructor <;> linarith

end Interval

end CliffordT

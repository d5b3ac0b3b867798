import CliffordT.Proofs.Rotation.Options
import CliffordT.Rotation.Search

/-!
The region of a search and the tolerance it is made from.

The region's ellipse is found by dividing by `1 - chord²`, where the chord is one less half the square of the tolerance. At a
working precision that was asked for, the square may be too small to count against one, and the divisor is then zero.
-/

namespace CliffordT

open Scalar

namespace Segment

variable {p : ℕ}

theorem isZero_iff (x : Approx p) : isZero x = true ↔ x.toReal = 0 := by
  rw [isZero, decide_eq_true_eq, Approx.toReal_eq_zero_iff]
  exact compare_eq_iff_eq (a := x.mant)

/-- With a chord of exactly one there is nothing to divide by. -/
theorem ofRotation_eq_undefined (hp : 2 ≤ p) (theta : Approx p) {epsilon : Approx p}
    (h : (1 - half (square epsilon)).toReal = 1) : ofRotation theta epsilon = .error .undefined := by
  have hzero : isZero (1 - square (1 - half (square epsilon))) = true := by
    have hsquare : (square (1 - half (square epsilon))).toReal = 1 := Approx.toReal_mul_self_of_eq_one (by omega) h
    rw [isZero, decide_eq_true_eq]
    change (1 - square (1 - half (square epsilon))).sign = .eq
    rw [Approx.sign_sub_eq hp, hsquare, Approx.toReal_one]
    exact compare_eq_iff_eq.2 rfl
  rw [ofRotation]
  dsimp only [bind, Except.bind]
  rw [quotient, quotient, if_pos hzero]
  by_cases hextent : isZero (square (half (square epsilon))) = true
  · rw [if_pos hextent]
  · rw [if_neg hextent]

theorem isZero_square (hp : 2 ≤ p) {x : Approx p} (h : 0 < x.toReal) : isZero (square x) = false := by
  have hround := abs_le.1 (Approx.abs_mul_sub_le x x)
  have hxx : 0 < x.toReal * x.toReal := mul_pos h h
  rw [abs_of_pos hxx] at hround
  have := mul_le_mul_of_nonneg_right (ulp_le_half hp) hxx.le
  rw [← Bool.not_eq_true, isZero_iff]
  exact ne_of_gt (show 0 < (x * x).toReal by linarith)

theorem isZero_one_sub_square (hp : 2 ≤ p) {chord : Approx p} (h0 : 0 ≤ chord.toReal)
    (h1 : chord.toReal ≤ 1 - 2 * ulp p) : isZero (1 - square chord) = false := by
  have hpos := ulp_pos p
  have hulp := ulp_le_half hp
  have hround := abs_le.1 (Approx.abs_mul_sub_le chord chord)
  rw [abs_of_nonneg (mul_nonneg h0 h0)] at hround
  have hproduct : chord.toReal * chord.toReal ≤ (1 - 2 * ulp p) * (1 - 2 * ulp p) := mul_le_mul h1 h1 h0 (by linarith)
  have hlt : (square chord).toReal < 1 := by
    change (chord * chord).toReal < 1
    have hfactor := mul_le_mul_of_nonneg_left hproduct (by linarith : 0 ≤ 1 + ulp p)
    have hcube : ulp p ^ 2 * ulp p ≤ (1 / 2) ^ 2 * ulp p :=
      mul_le_mul_of_nonneg_right (pow_le_pow_left₀ hpos.le hulp 2) hpos.le
    linarith
  rw [isZero, decide_eq_false_iff_not]
  change ¬(1 - square chord).sign = .eq
  rw [Approx.sign_sub_eq hp, Approx.toReal_one, compare_eq_iff_eq]
  exact hlt.ne'

/-- With a chord that is visibly less than one there is a segment. -/
theorem exists_ofRotation (hp : 2 ≤ p) (theta : Approx p) {epsilon : Approx p}
    (h : 3 * ulp p ≤ (half (square epsilon)).toReal) (h1 : (half (square epsilon)).toReal ≤ 1) :
    ∃ s, ofRotation theta epsilon = .ok s := by
  have hpos := ulp_pos p
  generalize hx : half (square epsilon) = x at h h1
  have hchord : 0 ≤ (1 - x).toReal ∧ (1 - x).toReal ≤ 1 - 2 * ulp p := by
    have hround := abs_le.1 (Approx.abs_sub_sub_le (by omega) 1 x)
    rw [Approx.toReal_one, abs_of_nonneg (by linarith)] at hround
    have hloss := mul_le_mul_of_nonneg_right (ulp_le_half hp) (by linarith : 0 ≤ 1 - x.toReal)
    have hgain := mul_le_mul_of_nonneg_left (by linarith : 1 - x.toReal ≤ 1) hpos.le
    constructor <;> linarith
  rw [ofRotation]
  dsimp only [bind, Except.bind]
  rw [hx, quotient, quotient, isZero_square hp (by linarith), isZero_one_sub_square hp hchord.1 hchord.2]
  exact ⟨_, rfl⟩

end Segment

/-- Half of the square of a tolerance is computed up to a tenth. -/
theorem abs_half_square_sub_le (o : Options) :
    |(half (square (o.epsilon.eval : Approx o.precision.bits))).toReal - o.epsilon.value ^ 2 / 2| ≤
      1 / 10 * (o.epsilon.value ^ 2 / 2) := by
  have hbits := o.precision.le_bits
  have hdrift := o.precision.drift_two_mul_bits_le
  have hnear := o.epsilon.eval_near (p := o.precision.bits) (by omega)
  have herror := ((hnear.mul hnear).shift (-1)).error
  rw [abs_mul_abs_self, ← sq, zpow_neg_one, ← div_eq_mul_inv] at herror
  refine herror.trans (mul_le_mul_of_nonneg_right ((drift_mono _ ?_).trans hdrift) (by positivity))
  omega

/-- What becomes of the tolerance at the precision. If its square does not count against one, then the region has no extent
and the search ends in a division by zero. With digits that are derived from the tolerance this does not happen. -/
theorem approximate_undefined_and_exists_segment (E : Type) [Exponent E] {o : Options} (hvalid : o.validate = .ok ()) :
    (o.epsilon.value ^ 2 ≤ ulp o.precision.bits / 4 → approximateOver E o = .error .undefined) ∧
      (o.digits = none → o.epsilon.Fits → ∃ s : Segment (Approx o.precision.bits),
        Segment.ofRotation o.theta.eval o.epsilon.eval = .ok s) := by
  have hbits := o.precision.le_bits
  have hsquare := abs_le.1 (abs_half_square_sub_le o)
  have hpos := ulp_pos o.precision.bits
  constructor
  · intro h
    have hchord : (1 - half (square (o.epsilon.eval : Approx o.precision.bits))).toReal = 1 :=
      Approx.toReal_one_sub (by linarith [sq_nonneg o.epsilon.value]) (by linarith)
    simp only [approximateOver, Search.run, hvalid, bind, Except.bind,
      Segment.ofRotation_eq_undefined (by omega) _ hchord]
  · intro hdigits hfits
    have hopen := Options.isOpenUnit_of_validate hvalid
    obtain ⟨h0, h1⟩ := Literal.value_of_isOpenUnit hopen
    have hle : o.epsilon.value ^ 2 ≤ 1 := pow_le_one₀ h0.le h1.le
    have := Options.ulp_le_sq hopen hdigits hfits
    exact Segment.exists_ofRotation (by omega) _ (by linarith) (by linarith)

/-- A tolerance of `10⁻²⁰` at sixteen digits and at as many digits as it needs. -/
theorem approximate_undefined_and_exists_segment_sixteen :
    approximate { Options.ofLiterals ⟨1, 2, false, by decide⟩ ⟨1, 10 ^ 20, false, by decide⟩ with digits := some 16 } =
        .error .undefined ∧
      ∃ s : Segment (Approx (Options.ofLiterals ⟨1, 2, false, by decide⟩ ⟨1, 10 ^ 20, false, by decide⟩).precision.bits),
        Segment.ofRotation (Literal.eval ⟨1, 2, false, by decide⟩) (Literal.eval ⟨1, 10 ^ 20, false, by decide⟩) =
          .ok s := by
  constructor
  · refine (approximate_undefined_and_exists_segment UInt32 (by decide)).1 ?_
    have hbits : (Precision.ofDigits 16).bits = 86 := by decide +kernel
    change Literal.value ⟨1, 10 ^ 20, false, by decide⟩ ^ 2 ≤ ulp (Precision.ofDigits 16).bits / 4
    rw [hbits, Literal.value, if_neg Bool.false_ne_true, ulp]
    norm_num
  · exact (approximate_undefined_and_exists_segment UInt32
      (o := .ofLiterals ⟨1, 2, false, by decide⟩ ⟨1, 10 ^ 20, false, by decide⟩) (by decide)).2 rfl
      ⟨by decide, by decide⟩

end CliffordT

import CliffordT.Proofs.Plane.Reduction
import CliffordT.Proofs.Rotation.Accuracy
import CliffordT.Proofs.Rotation.Segment

/-!
The region of a search has an extent, as computed.

The form of its ellipse is a diagonal one that is turned. No entry suffers from cancellation, and its determinant is positive as
long as the two half-axes are not too different for the precision: how much is lost in the difference of the two products
does not depend on the angle. The digits that are derived from a tolerance are enough for the two half-axes.
-/

namespace CliffordT

open Scalar

theorem sq_mul_add_sq_mul_pos {c s a b : ℝ} (ha : 0 < a) (hb : 0 < b) (hturn : 0 < c ^ 2 + s ^ 2) :
    0 < c ^ 2 * a + s ^ 2 * b := by
  obtain hc | hc := (sq_nonneg c).lt_or_eq
  · have := mul_pos hc ha
    positivity
  · have := mul_pos (by linarith : 0 < s ^ 2) hb
    positivity

/-- A turned diagonal form, with products that are off by a relative error. -/
theorem mul_xy_sq_lt {c s a b d : ℝ} (ha : 0 < a) (hb : 0 < b) (hturn : 0 < c ^ 2 + s ^ 2) (hd0 : 0 ≤ d)
    (hd : d * (a + b) ^ 2 < 2 * (a * b)) :
    (1 + d) * (c * s * (a - b)) ^ 2 < (1 - d) * ((c ^ 2 * a + s ^ 2 * b) * (s ^ 2 * a + c ^ 2 * b)) := by
  have hdet : (c ^ 2 * a + s ^ 2 * b) * (s ^ 2 * a + c ^ 2 * b) - (c * s * (a - b)) ^ 2 = (c ^ 2 + s ^ 2) ^ 2 * (a * b) := by
    ring
  have hmean : 4 * ((c ^ 2 * a + s ^ 2 * b) * (s ^ 2 * a + c ^ 2 * b)) ≤ (c ^ 2 + s ^ 2) ^ 2 * (a + b) ^ 2 := by
    linarith [sq_nonneg (c ^ 2 * a + s ^ 2 * b - (s ^ 2 * a + c ^ 2 * b))]
  have hloss : (c ^ 2 + s ^ 2) ^ 2 * (d * (a + b) ^ 2) < (c ^ 2 + s ^ 2) ^ 2 * (2 * (a * b)) :=
    mul_lt_mul_of_pos_left hd (by positivity)
  have hpos : 0 ≤ (c ^ 2 + s ^ 2) ^ 2 * (a * b) := by positivity
  generalize (c ^ 2 * a + s ^ 2 * b) * (s ^ 2 * a + c ^ 2 * b) = first at *
  generalize (c * s * (a - b)) ^ 2 = second at *
  have hle := mul_le_mul_of_nonneg_left (by linarith : second ≤ first) hd0
  have := mul_le_mul_of_nonneg_left hmean hd0
  linarith

/-- Half-axes `h` and `√(h (2 - h))`, from the inverses of their squares, are not too different for errors that are small
against the shorter one. -/
theorem mul_add_sq_lt {h a b d : ℝ} (h0 : 0 < h) (h1 : h ≤ 1) (ha : 1 / 2 ≤ a * h ^ 2) (ha' : a * h ^ 2 ≤ 2)
    (hb : 1 / 2 ≤ b * (h * (2 - h))) (hb' : b * (h * (2 - h)) ≤ 2) (hd : 28 * d ≤ h) :
    0 < a ∧ 0 < b ∧ d * (a + b) ^ 2 < 2 * (a * b) := by
  have hwidth := mul_pos h0 (by linarith : 0 < 2 - h)
  have ha0 : 0 < a := (pos_iff_pos_of_mul_pos (by linarith)).2 (by positivity : 0 < h ^ 2)
  have hb0 : 0 < b := (pos_iff_pos_of_mul_pos (by linarith)).2 hwidth
  have hah := mul_nonneg (mul_pos ha0 h0).le (by linarith : 0 ≤ 1 - h)
  have hbh := mul_nonneg (mul_pos hb0 h0).le (by linarith : 0 ≤ 1 - h)
  have hbhh : 0 ≤ b * h ^ 2 := by positivity
  have hlong : a * h ≤ 8 * b := le_of_mul_le_mul_right (by linarith) h0
  have hshort : b ≤ 4 * a := le_of_mul_le_mul_right (by linarith) h0
  refine ⟨ha0, hb0, ?_⟩
  have hsum := mul_le_mul_of_nonneg_right hd (sq_nonneg (a + b))
  have hlast := mul_le_mul_of_nonneg_left (by linarith [mul_le_mul_of_nonneg_right h1 ha0.le] : h * (2 * a) ≤ 2 * a) hb0.le
  have haa := mul_le_mul_of_nonneg_left hlong ha0.le
  have hbb := mul_le_mul (mul_le_of_le_one_left hb0.le h1) hshort hb0.le hb0.le
  have hab := mul_pos ha0 hb0
  linarith

namespace Approx

variable {p : ℕ}

theorem isPositive_iff (x : Approx p) : isPositive x = true ↔ 0 < x.toReal := by
  rw [isPositive, decide_eq_true_eq, toReal_pos_iff]
  exact compare_gt_iff_gt (a := x.mant)

theorem quotient_eq_ok_iff {x y z : Approx p} : quotient x y = .ok z ↔ y.toReal ≠ 0 ∧ x / y = z := by
  rw [quotient]
  split
  · next h => simp [(Segment.isZero_iff y).1 h]
  · next h => simp [mt (Segment.isZero_iff y).2 h]

/-- The sign of a difference is not lost to rounding. -/
theorem isDegenerate_eq_false_iff (hp : 2 ≤ p) (e : Ellipse (Approx p)) : e.isDegenerate = false ↔
    0 < e.xx.toReal ∧ 0 < e.yy.toReal ∧ (square e.xy).toReal < (e.xx * e.yy).toReal := by
  have hdet : isPositive e.det = true ↔ (square e.xy).toReal < (e.xx * e.yy).toReal := by
    rw [isPositive, decide_eq_true_eq]
    change (e.xx * e.yy - square e.xy).sign = .gt ↔ _
    rw [sign_sub_eq hp, compare_gt_iff_gt]
  rw [Ellipse.isDegenerate, ← isPositive_iff, ← isPositive_iff, ← hdet]
  cases isPositive e.xx <;> cases isPositive e.yy <;> simp

theorem Near.pos {k : ℕ} {x : Approx p} {v : ℝ} (h : Near k v x v) (hk : drift p k < 1) (hv : 0 < v) : 0 < x.toReal := by
  have := neg_le_of_abs_le h.error
  have := mul_lt_mul_of_pos_right hk hv
  linarith

variable {c s a b : Approx p}

theorem near_diagonal (hp : 2 ≤ p) (ha : 0 < a.toReal) (hb : 0 < b.toReal) (c s : Approx p) :
    Near 3 (c.toReal ^ 2 * a.toReal + s.toReal ^ 2 * b.toReal) (square c * a + square s * b)
      (c.toReal ^ 2 * a.toReal + s.toReal ^ 2 * b.toReal) := by
  have := ((Near.square c).mul (Near.exact a)).add (by omega) ((Near.square s).mul (Near.exact b))
  rwa [abs_of_pos ha, abs_of_pos hb] at this

/-- The form of a turned ellipse, whatever its axes are, has no cancellation in its entries. -/
theorem isDegenerate_turned (hp : 2 ≤ p) (ha : 0 < a.toReal) (hb : 0 < b.toReal)
    (hturn : 0 < c.toReal ^ 2 + s.toReal ^ 2)
    (h : drift p 7 * (a.toReal + b.toReal) ^ 2 < 2 * (a.toReal * b.toReal)) (centre : Approx p × Approx p) :
    (⟨square c * a + square s * b, c * s * (a - b), square s * a + square c * b, centre⟩ :
      Ellipse (Approx p)).isDegenerate = false := by
  have hsmall : drift p 7 < 1 / 2 := by
    have hmean : 4 * (a.toReal * b.toReal) ≤ (a.toReal + b.toReal) ^ 2 := by
      linarith [sq_nonneg (a.toReal - b.toReal)]
    exact lt_of_mul_lt_mul_right (by linarith) (sq_nonneg (a.toReal + b.toReal))
  have hthree := (drift_mono p (show 3 ≤ 7 by omega)).trans_lt (hsmall.trans one_half_lt_one)
  have hxx := near_diagonal hp ha hb c s
  have hyy := near_diagonal hp ha hb s c
  have hxy : Near 3 |c.toReal * s.toReal * (a.toReal - b.toReal)| (c * s * (a - b))
      (c.toReal * s.toReal * (a.toReal - b.toReal)) := by
    have hsub : Near 1 |a.toReal - b.toReal| (a - b) (a.toReal - b.toReal) :=
      ⟨(abs_sub_sub_le (by omega) a b).trans_eq (by rw [drift_one]), le_rfl⟩
    have := ((Near.exact c).mul (Near.exact s)).mul hsub
    rwa [← abs_mul, ← abs_mul] at this
  -- Both products are off by seven roundings of themselves. The length of the target is a factor of all that is compared.
  have hlt := mul_xy_sq_lt ha hb hturn (drift_nonneg p 7) h
  have hproduct := (abs_le.1 (hxx.mul hyy).error).1
  have hsquare := (abs_le.1 (hxy.mul hxy).error).2
  rw [abs_mul_abs_self, ← sq] at hsquare
  refine (isDegenerate_eq_false_iff hp _).2 ⟨hxx.pos hthree (sq_mul_add_sq_mul_pos ha hb hturn),
    hyy.pos hthree (sq_mul_add_sq_mul_pos ha hb (by linarith)), ?_⟩
  change (c * s * (a - b) * (c * s * (a - b))).toReal < _
  linarith

end Approx

theorem Disk.isDegenerate_ellipse {p : ℕ} (hp : 2 ≤ p) : (Disk.ellipse : Ellipse (Approx p)).isDegenerate = false := by
  refine (Approx.isDegenerate_eq_false_iff hp _).2 ⟨?_, ?_, ?_⟩
  · exact Approx.toReal_one.symm ▸ one_pos
  · exact Approx.toReal_one.symm ▸ one_pos
  · change ((0 : Approx p) * 0).toReal < ((1 : Approx p) * 1).toReal
    have hzero := Approx.abs_mul_sub_le (0 : Approx p) 0
    rw [Approx.toReal_zero, mul_zero, abs_zero, mul_zero, sub_zero, abs_nonpos_iff] at hzero
    rw [hzero, Approx.toReal_mul_self_of_eq_one (by omega) Approx.toReal_one]
    exact one_pos

/-- Only degenerate ellipses have no upright pair. -/
theorem UprightPair.isDegenerate_of_ofEllipses {K E : Type} [NumericScalar K] [Exponent E] {a b : Ellipse K}
    (h : UprightPair.ofEllipses (E := E) a b = .ok none) : a.isDegenerate = true ∨ b.isDegenerate = true := by
  rw [UprightPair.ofEllipses] at h
  split at h
  · next hdegenerate => exact Bool.or_eq_true_iff.1 hdegenerate
  · obtain ⟨_, -, h⟩ := exists_of_bind_ok h
    obtain ⟨_, -, h⟩ := exists_of_bind_ok h
    obtain ⟨_, -, h⟩ := exists_of_bind_ok h
    obtain ⟨_, -, h⟩ := exists_of_bind_ok h
    obtain ⟨_, -, h⟩ := exists_of_bind_ok h
    obtain ⟨_, -, h⟩ := exists_of_bind_ok h
    cases h

namespace Segment

variable {p : ℕ} {h : Approx p}

/-- The inverse of the square of the half-axis along the target. -/
theorem along_bounds (hp : 2 ≤ p) (h0 : 0 < h.toReal) (hulp : 400 * ulp p ≤ 1) {along : Approx p}
    (halong : 1 / square h = along) : 1 / 2 ≤ along.toReal * h.toReal ^ 2 ∧ along.toReal * h.toReal ^ 2 ≤ 2 := by
  have hpos : 0 < h.toReal ^ 2 := by positivity
  have hdrift : drift p 3 ≤ 1 / 2 := (drift_le (by push_cast; linarith)).trans (by push_cast; linarith)
  have hone : Approx.Near 0 1 (1 : Approx p) 1 := by simpa using Approx.Near.exact (1 : Approx p)
  have hsquare : Approx.Near 1 |h.toReal ^ 2| (square h) (h.toReal ^ 2) := by
    rw [abs_of_pos hpos]
    exact Approx.Near.square h
  have herror := (hone.div (by omega) hsquare hpos.ne' ((drift_mono p (by omega)).trans hdrift)).error
  rw [halong, abs_of_pos hpos] at herror
  have := mul_le_mul_of_nonneg_right (herror.trans (mul_le_mul_of_nonneg_right hdrift (by positivity))) hpos.le
  rw [← abs_of_pos hpos, ← abs_mul, abs_of_pos hpos, sub_mul, mul_assoc, one_div_mul_cancel hpos.ne', abs_le] at this
  constructor <;> linarith

/-- The square of the half-axis across the target. The chord is what cancels. -/
theorem abs_width_sub_le (hp : 2 ≤ p) (hextent : 400 * ulp p ≤ h.toReal) (h1 : h.toReal ≤ 1) :
    |(1 - square (1 - h)).toReal - h.toReal * (2 - h.toReal)| ≤ h.toReal * (2 - h.toReal) / 80 := by
  have hpos := ulp_pos p
  have hwide := mul_nonneg (by linarith : 0 ≤ h.toReal) (by linarith : 0 ≤ 1 - h.toReal)
  have hfirst := Approx.abs_sub_sub_le (by omega) 1 h
  generalize 1 - h = chord at *
  have hsecond := Approx.abs_mul_sub_le chord chord
  have hthird := Approx.abs_sub_sub_le (by omega) 1 (square chord)
  change |(1 - square chord).toReal - ((1 : Approx p).toReal - (chord * chord).toReal)| ≤
    ulp p * |(1 : Approx p).toReal - (chord * chord).toReal| at hthird
  rw [Approx.toReal_one, abs_of_nonneg (by linarith : 0 ≤ 1 - h.toReal)] at hfirst
  rw [Approx.toReal_one] at hthird
  generalize (1 - square chord).toReal = width at *
  generalize (chord * chord).toReal = product at *
  generalize chord.toReal = d at *
  generalize h.toReal = x at *
  generalize ulp p = u at *
  have hd : |d - (1 - x)| ≤ u := hfirst.trans (mul_le_of_le_one_right hpos.le (by linarith))
  have hd1 : |d| ≤ 1 := by
    rw [abs_le] at hd ⊢
    constructor <;> linarith
  have hsquare : |d * d - (1 - x) ^ 2| ≤ 2 * u := by
    rw [show d * d - (1 - x) ^ 2 = (d - (1 - x)) * (d + (1 - x)) by ring, abs_mul, mul_comm 2]
    refine mul_le_mul hd ?_ (abs_nonneg _) hpos.le
    rw [abs_le] at hd1 ⊢
    constructor <;> linarith
  have hround : |product - d * d| ≤ u := by
    refine hsecond.trans (mul_le_of_le_one_right hpos.le ?_)
    rw [abs_mul]
    exact mul_le_one₀ hd1 (abs_nonneg d) hd1
  have hrest : |1 - product| ≤ 2 := by
    have hchord : (1 - x) ^ 2 ≤ 1 := pow_le_one₀ (by linarith) (by linarith)
    have hchord0 := sq_nonneg (1 - x)
    rw [abs_le] at hround hsquare ⊢
    constructor <;> linarith
  have hlast : |width - (1 - product)| ≤ 2 * u :=
    hthird.trans ((mul_le_mul_of_nonneg_left hrest hpos.le).trans_eq (mul_comm u 2))
  rw [abs_le] at hround hsquare hlast ⊢
  constructor <;> linarith

/-- The inverse of the square of the half-axis across the target. -/
theorem across_bounds (hp : 2 ≤ p) (hextent : 400 * ulp p ≤ h.toReal) (h1 : h.toReal ≤ 1) {across : Approx p}
    (hacross : 1 / (1 - square (1 - h)) = across) :
    1 / 2 ≤ across.toReal * (h.toReal * (2 - h.toReal)) ∧ across.toReal * (h.toReal * (2 - h.toReal)) ≤ 2 := by
  have hpos := ulp_pos p
  have hwidth := abs_le.1 (abs_width_sub_le hp hextent h1)
  have hexact : 0 < h.toReal * (2 - h.toReal) := mul_pos (by linarith) (by linarith)
  generalize 1 - square (1 - h) = width at *
  have hwidth0 : 0 < width.toReal := by linarith
  have hround := Approx.abs_div_sub_le (by omega) 1 (y := width) fun h0 =>
    hwidth0.ne' ((Approx.toReal_eq_zero_iff width).2 h0)
  rw [hacross, Approx.toReal_one, abs_of_pos (one_div_pos.2 hwidth0)] at hround
  have hinverse := mul_le_mul_of_nonneg_right hround hwidth0.le
  rw [mul_assoc, one_div_mul_cancel hwidth0.ne', mul_one, ← abs_of_pos hwidth0, ← abs_mul, abs_of_pos hwidth0, sub_mul,
    one_div_mul_cancel hwidth0.ne', abs_le] at hinverse
  have hacross0 : 0 < across.toReal := (pos_iff_pos_of_mul_pos (by linarith)).2 hwidth0
  have hlow := mul_le_mul_of_nonneg_left hwidth.1 hacross0.le
  have hhigh := mul_le_mul_of_nonneg_left hwidth.2 hacross0.le
  constructor <;> linarith

/-- A segment has an extent if half the square of its tolerance counts against one and its target is not zero. -/
theorem isDegenerate_ofRotation (hp : 2 ≤ p) {theta epsilon : Approx p} {s : Segment (Approx p)}
    (hs : ofRotation theta epsilon = .ok s) (hextent : 400 * ulp p ≤ (half (square epsilon)).toReal)
    (h1 : (half (square epsilon)).toReal ≤ 1)
    (hturn : 0 < (Approx.sinCos (half (-theta))).2.toReal ^ 2 + (Approx.sinCos (half (-theta))).1.toReal ^ 2) :
    s.ellipse.isDegenerate = false := by
  have hpos := ulp_pos p
  rw [ofRotation] at hs
  generalize half (square epsilon) = h at *
  obtain ⟨along, halong, hs⟩ := exists_of_bind_ok hs
  obtain ⟨across, hacross, hs⟩ := exists_of_bind_ok hs
  cases hs
  obtain ⟨hlong, hlong'⟩ := along_bounds hp (by linarith) (by linarith) (Approx.quotient_eq_ok_iff.1 halong).2
  obtain ⟨hshort, hshort'⟩ := across_bounds hp hextent h1 (Approx.quotient_eq_ok_iff.1 hacross).2
  have hdrift : drift p 7 ≤ 14 * ulp p := (drift_le (by push_cast; linarith)).trans_eq (by push_cast; ring)
  obtain ⟨ha, hb, hratio⟩ := mul_add_sq_lt (by linarith) h1 hlong hlong' hshort hshort' (by linarith)
  exact Approx.isDegenerate_turned hp ha hb hturn hratio _

end Segment

/-- Numbers that are near a sine and a cosine are not both zero. -/
theorem sq_add_sq_pos_of_near {x c s d : ℝ} (hs : |s - Real.sin x| ≤ d) (hc : |c - Real.cos x| ≤ d) (hd : d ≤ 1 / 2) :
    0 < c ^ 2 + s ^ 2 := by
  have hturn := Real.sin_sq_add_cos_sq x
  by_contra hnot
  have hzero : ∀ {a b : ℝ}, a ^ 2 + b ^ 2 ≤ 0 → a = 0 := fun {a b} h =>
    (pow_eq_zero_iff two_ne_zero).1 (le_antisymm (by linarith [sq_nonneg b]) (sq_nonneg a))
  obtain rfl := hzero (not_lt.1 hnot)
  obtain rfl := hzero (a := s) (b := 0) (by linarith)
  rw [zero_sub, abs_neg] at hs hc
  have h₁ := sq_le_sq' (by linarith [neg_abs_le (Real.sin x)]) ((le_abs_self _).trans (hs.trans hd))
  have h₂ := sq_le_sq' (by linarith [neg_abs_le (Real.cos x)]) ((le_abs_self _).trans (hc.trans hd))
  linarith

namespace Options

/-- The target of a request at the precision that is derived from it. -/
theorem target_pos {o : Options} (h : o.digits = none) (hfits : o.theta.Fits) :
    0 < (Approx.sinCos (half (-o.theta.eval : Approx o.precision.bits))).2.toReal ^ 2 +
      (Approx.sinCos (half (-o.theta.eval : Approx o.precision.bits))).1.toReal ^ 2 := by
  have hbits := o.precision.le_bits
  have hbound := trigDrift_sine_le h hfits
  have hhalf : |-o.theta.value / 2| = |o.theta.value| / 2 := by rw [abs_div, abs_neg, abs_two]
  norm_num at hbound
  have hdrift := mul_nonneg (trigDrift_nonneg o.precision.bits) (abs_nonneg o.theta.value)
  have hnear : Approx.Near (Approx.trigRoundings o.precision.bits) |-o.theta.value / 2|
      (half (-o.theta.eval : Approx o.precision.bits)) (-o.theta.value / 2) := by
    have heval := (o.theta.eval_near (p := o.precision.bits) (by omega)).neg
    rw [← abs_neg] at heval
    exact (near_half heval).mono (by rw [Approx.trigRoundings]; omega) le_rfl
  obtain ⟨hsin, hcos⟩ := abs_sinCos_sub_le_of_near (by omega) hnear (by rw [hhalf]; linarith)
  exact sq_add_sq_pos_of_near hsin hcos (by rw [hhalf]; linarith [trigDrift_nonneg o.precision.bits])

/-- The derived precision is enough for the region of a search. With digits that are derived from an angle and a tolerance between
zero and one, the segment is found without a division by zero and its ellipse is not degenerate, so that it has an
upright pair with any ellipse that is not degenerate itself, unless that fails otherwise. -/
theorem exists_segment_not_degenerate (E : Type) [Exponent E] {o : Options} (h0 : 0 < o.epsilon.value) (h1 : o.epsilon.value < 1)
    (hdigits : o.digits = none) (htheta : o.theta.Fits) (hepsilon : o.epsilon.Fits) :
    ∃ s : Segment (Approx o.precision.bits), Segment.ofRotation o.theta.eval o.epsilon.eval = .ok s ∧
      s.ellipse.isDegenerate = false ∧
      (∀ b, UprightPair.ofEllipses (E := E) s.ellipse b = .ok none → b.isDegenerate = true) ∧
      UprightPair.ofEllipses (E := E) s.ellipse Disk.ellipse ≠ .ok none := by
  have hbits := o.precision.le_bits
  have hpos := ulp_pos o.precision.bits
  have hsquare := abs_le.1 (abs_half_square_sub_le o)
  have hulp := ulp_le_sq_of_pos h0 hdigits hepsilon
  have hle : o.epsilon.value ^ 2 ≤ 1 := pow_le_one₀ h0.le h1.le
  obtain ⟨s, hs⟩ := Segment.exists_ofRotation (by omega) (o.theta.eval : Approx o.precision.bits) (by linarith) (by linarith)
  have hextent := Segment.isDegenerate_ofRotation (by omega) hs (by linarith) (by linarith) (target_pos hdigits htheta)
  have hnone : ∀ b, UprightPair.ofEllipses (E := E) s.ellipse b = .ok none → b.isDegenerate = true := fun b hb =>
    (UprightPair.isDegenerate_of_ofEllipses hb).resolve_left (by rw [hextent]; exact Bool.false_ne_true)
  refine ⟨s, hs, hextent, hnone, fun h => ?_⟩
  have := hnone _ h
  rw [Disk.isDegenerate_ellipse (by omega)] at this
  exact Bool.false_ne_true this

/-- A tolerance of `10⁻²⁰` at as many digits as it needs. -/
theorem exists_segment_not_degenerate_small :
    ∃ s : Segment (Approx (Options.ofLiterals ⟨1, 2, false, by decide⟩ ⟨1, 10 ^ 20, false, by decide⟩).precision.bits),
      Segment.ofRotation (Literal.eval ⟨1, 2, false, by decide⟩) (Literal.eval ⟨1, 10 ^ 20, false, by decide⟩) = .ok s ∧
      s.ellipse.isDegenerate = false := by
  obtain ⟨h0, h1⟩ := Literal.value_of_isOpenUnit (l := ⟨1, 10 ^ 20, false, by decide⟩) (by decide)
  obtain ⟨s, hs, hextent, -, -⟩ := exists_segment_not_degenerate UInt32
    (o := .ofLiterals ⟨1, 2, false, by decide⟩ ⟨1, 10 ^ 20, false, by decide⟩) h0 h1 rfl ⟨by decide, by decide⟩
    ⟨by decide, by decide⟩
  exact ⟨s, hs, hextent⟩

end Options

end CliffordT

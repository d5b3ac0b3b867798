import CliffordT.Plane.Reduction
import CliffordT.Proofs.Plane.Action
import CliffordT.Proofs.Plane.Region
import CliffordT.Proofs.Working.Exact

/-!
Ellipses around the regions of a search, in exact arithmetic.

The ellipse of a segment touches it at the tip and at the ends of the chord. The preimage of an ellipse under a linear map is
an ellipse again, and its box touches it on all four sides. So a box that an enumeration starts from contains the first
coordinates of the preimages of all points of the region.
-/

namespace CliffordT

open Exponent Scalar
open scoped ExactReal

/-! ### Linear maps of the real plane -/

namespace Square

/-- The image of a point of the plane. -/
def act (g : Square ℝ) (p : ℝ × ℝ) : ℝ × ℝ := (g.m₀₀ * p.1 + g.m₀₁ * p.2, g.m₁₀ * p.1 + g.m₁₁ * p.2)

theorem act_mul (g h : Square ℝ) (p : ℝ × ℝ) : (g * h).act p = g.act (h.act p) := by
  rw [act, act, act, Prod.mk.injEq]
  change (g.m₀₀ * h.m₀₀ + g.m₀₁ * h.m₁₀) * p.1 + (g.m₀₀ * h.m₀₁ + g.m₀₁ * h.m₁₁) * p.2 = _ ∧
    (g.m₁₀ * h.m₀₀ + g.m₁₁ * h.m₁₀) * p.1 + (g.m₁₀ * h.m₀₁ + g.m₁₁ * h.m₁₁) * p.2 = _
  constructor <;> ring

theorem det_ne_zero {g gInv : Square ℝ} (h : g * gInv = ⟨1, 0, 0, 1⟩) : g.m₀₀ * g.m₁₁ - g.m₀₁ * g.m₁₀ ≠ 0 := by
  obtain ⟨h₀₀, h₀₁, h₁₀, h₁₁⟩ := mk.inj h
  refine left_ne_zero_of_mul_eq_one (b := gInv.m₀₀ * gInv.m₁₁ - gInv.m₀₁ * gInv.m₁₀) ?_
  calc (g.m₀₀ * g.m₁₁ - g.m₀₁ * g.m₁₀) * (gInv.m₀₀ * gInv.m₁₁ - gInv.m₀₁ * gInv.m₁₀)
      = (g.m₀₀ * gInv.m₀₀ + g.m₀₁ * gInv.m₁₀) * (g.m₁₀ * gInv.m₀₁ + g.m₁₁ * gInv.m₁₁) -
          (g.m₀₀ * gInv.m₀₁ + g.m₀₁ * gInv.m₁₁) * (g.m₁₀ * gInv.m₀₀ + g.m₁₁ * gInv.m₁₀) := by ring
    _ = 1 := by rw [h₀₀, h₀₁, h₁₀, h₁₁]; norm_num

theorem map_ofReal_mul (g h : Square ℝ) :
    map (fun x : ℝ => (x : ℂ)) (g * h) = map (fun x : ℝ => (x : ℂ)) g * map (fun x : ℝ => (x : ℂ)) h := by
  obtain ⟨a, b, c, d⟩ := g
  obtain ⟨a', b', c', d'⟩ := h
  simp only [map, mk_mul_mk, Complex.ofReal_add, Complex.ofReal_mul]

end Square

section Stored

variable {E : Type} [Exponent E]

namespace PlaneOp

theorem eval_real (g : PlaneOp E) : (g.eval : Square ℝ) = Square.map QuadFrac.toReal g := by
  simp only [eval, Square.map, QuadFrac.eval_real]

theorem eval_unbounded (g : PlaneOp E) : (g.unbounded.eval : Square ℝ) = g.eval := rfl

/-- The real entries are read off the values of the entries. -/
theorem eval_eq_of_values {g : PlaneOp E} {m : Square ℝ} (h : g.values = Square.map (fun x : ℝ => (x : ℂ)) m) :
    g.eval = m := by
  obtain ⟨h₀₀, h₀₁, h₁₀, h₁₁⟩ := Square.mk.inj h
  rw [eval_real, Square.map, QuadFrac.toReal_eq_of_value h₀₀, QuadFrac.toReal_eq_of_value h₀₁,
    QuadFrac.toReal_eq_of_value h₁₀, QuadFrac.toReal_eq_of_value h₁₁]

theorem values_eq (g : PlaneOp E) : g.values = Square.map (fun x : ℝ => (x : ℂ)) (g.eval : Square ℝ) := by
  simp only [values, eval_real, Square.map, QuadFrac.value_eq_toReal]

theorem eval_compose {g h : PlaneOp E} (hE : Stores E (g.depth + h.depth)) :
    ((g.compose h).eval : Square ℝ) = g.eval * h.eval := by
  rw [← eval_unbounded, unbounded_compose hE]
  apply eval_eq_of_values
  rw [values_compose, values_eq, values_eq h.unbounded, Square.map_ofReal_mul, eval_unbounded, eval_unbounded]

theorem eval_identity : ((identity : PlaneOp E).eval : Square ℝ) = ⟨1, 0, 0, 1⟩ := by
  apply eval_eq_of_values
  simp [values, Square.map, identity]

/-- The products of a map and its inverse, as real matrices. -/
theorem eval_compose_inverse {g inv : PlaneOp E} (hE : Stores E (2 * g.depth)) (h : g.inverse = .ok inv) :
    (inv.eval * g.eval : Square ℝ) = ⟨1, 0, 0, 1⟩ ∧ (g.eval * inv.eval : Square ℝ) = ⟨1, 0, 0, 1⟩ := by
  obtain ⟨hleft, hright⟩ := values_compose_inverse (inverse_unbounded hE h)
  have hproduct {f f' : PlaneOp E} (hf : (f.unbounded.compose f'.unbounded).values = (identity : PlaneOp ℕ).values) :
      (f.eval * f'.eval : Square ℝ) = ⟨1, 0, 0, 1⟩ := by
    rw [← eval_unbounded, ← eval_unbounded f', ← eval_compose inferInstance, ← eval_identity (E := ℕ)]
    exact eval_eq_of_values (hf.trans (values_eq identity))
  exact ⟨hproduct hleft, hproduct hright⟩

/-- A point of `𝔻[ω]` goes where its real coordinates go. -/
theorem act_eval {g : PlaneOp E} {u : CycloFrac E} (hE : Stores E (g.depth + (load u.exp + 1))) :
    (g.eval : Square ℝ).act (u.value.re, u.value.im) = ((g.apply u).value.re, (g.apply u).value.im) := by
  have himage : (g.apply u).value = (g.unbounded.apply u.unbounded).value := by
    rw [← unbounded_apply hE, RootFrac.value_unbounded]
  rw [himage, ← eval_unbounded, ← RootFrac.value_unbounded u]
  simp only [Square.act, eval_real, Square.map, value_apply, CycloFrac.value_re, CycloFrac.value_im,
    QuadFrac.value_eq_toReal]
  simp

end PlaneOp

theorem UprightPair.preimages_eq {K : Type} [Scalar K] (a b : Ellipse K) {g inv invb : PlaneOp E}
    (h : g.inverse = .ok inv) (hb : g.bullet.inverse = .ok invb) :
    preimages a b g = .ok (a.pullBack g.eval inv.eval, b.pullBack g.bullet.eval invb.eval) := by
  rw [preimages, h]
  simp only [bind, Except.bind, hb]
  rfl

end Stored

/-! ### Boxes and ellipses -/

/-- The numbers of an interval. -/
def Interval.numbers (i : Interval ℝ) : Set ℝ := Set.Icc i.lo i.hi

namespace Box

/-- The points of a box. -/
def points (b : Box ℝ) : Set (ℝ × ℝ) := b.x.numbers ×ˢ b.y.numbers

/-- The smallest box around a set of points. -/
structure IsTight (b : Box ℝ) (s : Set (ℝ × ℝ)) : Prop where
  /-- It contains the points. -/
  encloses : s ⊆ b.points
  /-- Every box that contains the points contains it. -/
  least : ∀ b' : Box ℝ, s ⊆ b'.points → b.points ⊆ b'.points

end Box

namespace Ellipse

variable {e : Ellipse ℝ}

/-- The value of the quadratic form. -/
def form (e : Ellipse ℝ) (x y : ℝ) : ℝ := e.xx * x ^ 2 + (2 : ℕ) * e.xy * x * y + e.yy * y ^ 2

theorem form_eq (e : Ellipse ℝ) (x y : ℝ) : e.form x y = e.xx * x ^ 2 + 2 * e.xy * x * y + e.yy * y ^ 2 := by
  rw [form, Nat.cast_ofNat]

/-- The points on the ellipse and inside it. -/
def points (e : Ellipse ℝ) : Set (ℝ × ℝ) := {p | e.form (p.1 - e.centre.1) (p.2 - e.centre.2) ≤ 1}

theorem det_real (e : Ellipse ℝ) : e.det = e.xx * e.yy - e.xy ^ 2 := by
  rw [det, square_real]

theorem isDegenerate_eq_false_iff : e.isDegenerate = false ↔ 0 < e.xx ∧ 0 < e.yy ∧ 0 < e.det := by
  simp only [isDegenerate, Bool.or_eq_false_iff, Bool.not_eq_false', isPositive_real, and_assoc]

/-! ### Preimages -/

theorem form_pullBack (e : Ellipse ℝ) (g gInv : Square ℝ) (x y : ℝ) :
    (e.pullBack g gInv).form x y = e.form (g.act (x, y)).1 (g.act (x, y)).2 := by
  simp only [form_eq, pullBack, Square.act]
  ring

theorem det_pullBack (e : Ellipse ℝ) (g gInv : Square ℝ) :
    (e.pullBack g gInv).det = (g.m₀₀ * g.m₁₁ - g.m₀₁ * g.m₁₀) ^ 2 * e.det := by
  simp only [det_real, pullBack]
  ring

/-- The points of the preimage are those whose images are points of the ellipse. -/
theorem mem_pullBack_iff (e : Ellipse ℝ) {g gInv : Square ℝ} (h : g * gInv = ⟨1, 0, 0, 1⟩) (p : ℝ × ℝ) :
    p ∈ (e.pullBack g gInv).points ↔ g.act p ∈ e.points := by
  obtain ⟨h₀₀, h₀₁, h₁₀, h₁₁⟩ := Square.mk.inj h
  -- the map takes the new centre to the old one
  have hfirst : (g.act (p.1 - (e.pullBack g gInv).centre.1, p.2 - (e.pullBack g gInv).centre.2)).1 =
      (g.act p).1 - e.centre.1 := by
    simp only [pullBack, Square.act]
    linear_combination -e.centre.1 * h₀₀ - e.centre.2 * h₀₁
  have hsecond : (g.act (p.1 - (e.pullBack g gInv).centre.1, p.2 - (e.pullBack g gInv).centre.2)).2 =
      (g.act p).2 - e.centre.2 := by
    simp only [pullBack, Square.act]
    linear_combination -e.centre.1 * h₁₀ - e.centre.2 * h₁₁
  rw [points, points, Set.mem_ofPred_eq, Set.mem_ofPred_eq, form_pullBack, hfirst, hsecond]

theorem xx_mul_form (e : Ellipse ℝ) (x y : ℝ) : e.xx * e.form x y = (e.xx * x + e.xy * y) ^ 2 + e.det * y ^ 2 := by
  rw [form_eq, det_real]
  ring

theorem yy_mul_form (e : Ellipse ℝ) (x y : ℝ) : e.yy * e.form x y = (e.xy * x + e.yy * y) ^ 2 + e.det * x ^ 2 := by
  rw [form_eq, det_real]
  ring

theorem form_pos (he : e.isDegenerate = false) {x y : ℝ} (h : x ≠ 0 ∨ y ≠ 0) : 0 < e.form x y := by
  obtain ⟨hxx, -, hdet⟩ := isDegenerate_eq_false_iff.1 he
  refine pos_of_mul_pos_right (a := e.xx) ?_ hxx.le
  rw [xx_mul_form]
  by_cases hy : y = 0
  · subst hy
    have hx : x ≠ 0 := h.resolve_right (· rfl)
    simp only [mul_zero, add_zero, ne_eq, OfNat.ofNat_ne_zero, not_false_eq_true, zero_pow]
    positivity
  · positivity

/-- The preimage under an invertible map has an area if the ellipse has. -/
theorem isDegenerate_pullBack {g gInv : Square ℝ} (h : g * gInv = ⟨1, 0, 0, 1⟩) (he : e.isDegenerate = false) :
    (e.pullBack g gInv).isDegenerate = false := by
  have hg := Square.det_ne_zero h
  have hcolumn {x y z w : ℝ} (hzw : x * w - z * y ≠ 0) : x ≠ 0 ∨ y ≠ 0 := by
    by_contra hzero
    push Not at hzero
    exact hzw (by rw [hzero.1, hzero.2]; ring)
  have hxx : (e.pullBack g gInv).xx = e.form g.m₀₀ g.m₁₀ := by
    simp only [pullBack, form_eq]
    ring
  have hyy : (e.pullBack g gInv).yy = e.form g.m₀₁ g.m₁₁ := by
    simp only [pullBack, form_eq]
    ring
  rw [isDegenerate_eq_false_iff, hxx, hyy, det_pullBack]
  refine ⟨form_pos he (hcolumn hg), form_pos he (hcolumn (z := g.m₀₀) (w := g.m₁₀) fun h => hg ?_), ?_⟩
  · linear_combination -h
  · have hdet := (isDegenerate_eq_false_iff.1 he).2.2
    positivity

/-! ### The box of an ellipse -/

theorem box_real (h : 0 < e.det) : e.box =
    .ok ⟨⟨e.centre.1 - √(e.yy / e.det), e.centre.1 + √(e.yy / e.det)⟩,
      ⟨e.centre.2 - √(e.xx / e.det), e.centre.2 + √(e.xx / e.det)⟩⟩ := by
  rw [box, quotient_real _ h.ne', quotient_real _ h.ne']
  rfl

theorem abs_le_of_form_le (he : e.isDegenerate = false) {x y : ℝ} (h : e.form x y ≤ 1) :
    |x| ≤ √(e.yy / e.det) ∧ |y| ≤ √(e.xx / e.det) := by
  obtain ⟨hxx, hyy, hdet⟩ := isDegenerate_eq_false_iff.1 he
  have hx := mul_le_mul_of_nonneg_left h hyy.le
  have hy := mul_le_mul_of_nonneg_left h hxx.le
  rw [yy_mul_form] at hx
  rw [xx_mul_form] at hy
  constructor <;> refine Real.abs_le_sqrt ((le_div_iff₀ hdet).2 ?_)
  · linarith [sq_nonneg (e.xy * x + e.yy * y)]
  · linarith [sq_nonneg (e.xx * x + e.xy * y)]

/-- The points where the ellipse touches the left and the right side of its box. -/
theorem form_extreme_x (he : e.isDegenerate = false) {x : ℝ} (hx : x ^ 2 = e.yy / e.det) :
    e.form x (-(e.xy / e.yy * x)) = 1 := by
  obtain ⟨-, hyy, hdet⟩ := isDegenerate_eq_false_iff.1 he
  have hzero : e.xy * x + e.yy * -(e.xy / e.yy * x) = 0 := by
    field_simp
    ring
  refine mul_left_cancel₀ hyy.ne' ?_
  rw [yy_mul_form, hzero, hx, mul_div_cancel₀ _ hdet.ne']
  ring

/-- The points where the ellipse touches the lower and the upper side of its box. -/
theorem form_extreme_y (he : e.isDegenerate = false) {y : ℝ} (hy : y ^ 2 = e.xx / e.det) :
    e.form (-(e.xy / e.xx * y)) y = 1 := by
  obtain ⟨hxx, -, hdet⟩ := isDegenerate_eq_false_iff.1 he
  have hzero : e.xx * -(e.xy / e.xx * y) + e.xy * y = 0 := by
    field_simp
    ring
  refine mul_left_cancel₀ hxx.ne' ?_
  rw [xx_mul_form, hzero, hy, mul_div_cancel₀ _ hdet.ne']
  ring

theorem mem_points_of_form_eq_one {x y : ℝ} (h : e.form x y = 1) : (e.centre.1 + x, e.centre.2 + y) ∈ e.points := by
  change e.form (e.centre.1 + x - e.centre.1) (e.centre.2 + y - e.centre.2) ≤ 1
  rw [add_sub_cancel_left, add_sub_cancel_left, h]

/-- The box of an ellipse is the smallest one around it. -/
theorem exists_box_isTight (he : e.isDegenerate = false) : ∃ b, e.box = .ok b ∧ b.IsTight e.points := by
  obtain ⟨hxx, hyy, hdet⟩ := isDegenerate_eq_false_iff.1 he
  refine ⟨_, box_real hdet, fun p hp => ?_, fun b hb => ?_⟩
  · obtain ⟨hx, hy⟩ := abs_le_of_form_le he hp
    rw [abs_le] at hx hy
    exact ⟨⟨by linarith, by linarith⟩, by linarith, by linarith⟩
  · have hx : √(e.yy / e.det) ^ 2 = e.yy / e.det := Real.sq_sqrt (by positivity)
    have hy : √(e.xx / e.det) ^ 2 = e.xx / e.det := Real.sq_sqrt (by positivity)
    have hleft := hb (mem_points_of_form_eq_one (form_extreme_x he ((neg_sq _).trans hx)))
    have hright := hb (mem_points_of_form_eq_one (form_extreme_x he hx))
    have hlower := hb (mem_points_of_form_eq_one (form_extreme_y he ((neg_sq _).trans hy)))
    have hupper := hb (mem_points_of_form_eq_one (form_extreme_y he hy))
    exact Set.prod_mono (Set.Icc_subset_Icc hleft.1.1 hright.1.2) (Set.Icc_subset_Icc hlower.2.1 hupper.2.2)

end Ellipse

end CliffordT

import CliffordT.Proofs.Plane.Ellipse
import CliffordT.Proofs.Plane.Reduction
import Mathlib.Analysis.SpecialFunctions.Complex.Circle

/-!
The ellipse of a segment encloses it, and so do the boxes that an enumeration starts from.

Measured along the target, the ellipse has its centre on the chord and its tip on the circle. Between the two it is wider than
the segment by a term that vanishes at both ends, so there is no slack at the tip.
-/

namespace CliffordT

open Exponent Scalar
open scoped ExactReal

/-- The points of the unit disk with `Re (u e^(iθ/2)) ≥ 1 - ε²/2`. -/
def rotationSegment (theta epsilon : ℝ) : Set ℂ :=
  {u | ‖u‖ ≤ 1 ∧ 1 - epsilon ^ 2 / (2 : ℕ) ≤ (u * Complex.exp ((theta / (2 : ℕ) : ℝ) * Complex.I)).re}

theorem mem_rotationSegment_iff {theta epsilon : ℝ} {u : ℂ} : u ∈ rotationSegment theta epsilon ↔
    ‖u‖ ≤ 1 ∧ 1 - epsilon ^ 2 / 2 ≤ (u * Complex.exp ((theta / 2 : ℝ) * Complex.I)).re := by
  rw [rotationSegment, Set.mem_ofPred_eq, Nat.cast_ofNat]

namespace Segment

variable {E : Type} [Exponent E] {theta epsilon : ℝ}

/-- A point of the disk beyond the chord at distance `d` lies in the ellipse with half-axes `1 - d` and `√(1 - d²)`. -/
theorem sq_div_add_sq_div_le_one {d a t : ℝ} (hd : 0 ≤ d) (hd1 : d < 1) (ha : d ≤ a) (hdisk : a ^ 2 + t ^ 2 ≤ 1) :
    (a - d) ^ 2 / (1 - d) ^ 2 + t ^ 2 / (1 - d ^ 2) ≤ 1 := by
  have ha1 : a ≤ 1 := (sq_le_one_iff_abs_le_one a).1 (by linarith [sq_nonneg t]) |> le_of_abs_le
  have hwide : 0 < 1 - d ^ 2 := by nlinarith
  have hslack : (a - d) ^ 2 / (1 - d) ^ 2 + (1 - a ^ 2) / (1 - d ^ 2) =
      1 - 2 * d * ((1 - a) * (a - d)) / ((1 - d) * (1 - d ^ 2)) := by
    have : 1 - d ≠ 0 := by linarith
    field_simp
    ring
  have hnonneg : 0 ≤ 2 * d * ((1 - a) * (a - d)) / ((1 - d) * (1 - d ^ 2)) := by
    have h₁ : 0 ≤ 1 - a := by linarith
    have h₂ : 0 ≤ a - d := by linarith
    have h₃ : 0 < 1 - d := by linarith
    positivity
  calc (a - d) ^ 2 / (1 - d) ^ 2 + t ^ 2 / (1 - d ^ 2)
      ≤ (a - d) ^ 2 / (1 - d) ^ 2 + (1 - a ^ 2) / (1 - d ^ 2) := by gcongr; linarith
    _ ≤ 1 := by rw [hslack]; linarith

/-- The segment of a rotation, without rounding. -/
noncomputable def exact (theta epsilon : ℝ) : Segment ℝ :=
  let c := Real.cos (-theta / (2 : ℕ))
  let s := Real.sin (-theta / (2 : ℕ))
  let h := epsilon ^ 2 / (2 : ℕ)
  let along := 1 / h ^ 2
  let across := 1 / (1 - (1 - h) ^ 2)
  { target := (c, s)
    chord := 1 - h
    ellipse := {
      xx := c ^ 2 * along + s ^ 2 * across
      xy := c * s * (along - across)
      yy := s ^ 2 * along + c ^ 2 * across
      centre := ((1 - h) * c, (1 - h) * s) } }

theorem exact_eq (theta epsilon : ℝ) : exact theta epsilon =
    { target := (Real.cos (-theta / 2), Real.sin (-theta / 2))
      chord := 1 - epsilon ^ 2 / 2
      ellipse := {
        xx := Real.cos (-theta / 2) ^ 2 * (1 / (epsilon ^ 2 / 2) ^ 2) +
          Real.sin (-theta / 2) ^ 2 * (1 / (1 - (1 - epsilon ^ 2 / 2) ^ 2))
        xy := Real.cos (-theta / 2) * Real.sin (-theta / 2) *
          (1 / (epsilon ^ 2 / 2) ^ 2 - 1 / (1 - (1 - epsilon ^ 2 / 2) ^ 2))
        yy := Real.sin (-theta / 2) ^ 2 * (1 / (epsilon ^ 2 / 2) ^ 2) +
          Real.cos (-theta / 2) ^ 2 * (1 / (1 - (1 - epsilon ^ 2 / 2) ^ 2))
        centre := ((1 - epsilon ^ 2 / 2) * Real.cos (-theta / 2), (1 - epsilon ^ 2 / 2) * Real.sin (-theta / 2)) } } := by
  simp only [exact, Nat.cast_ofNat]

theorem extents_pos (h0 : 0 < epsilon) (h1 : epsilon < 1) :
    0 < epsilon ^ 2 / 2 ∧ epsilon ^ 2 / 2 < 1 ∧ 0 < 1 - (1 - epsilon ^ 2 / 2) ^ 2 := by
  have hsq : epsilon ^ 2 < 1 := by nlinarith
  have hpos : 0 < epsilon ^ 2 := by positivity
  refine ⟨by linarith, by linarith, ?_⟩
  nlinarith

/-- A segment is found unless it has no extent along the target or across it. -/
theorem ofRotation_eq (theta epsilon : ℝ) : ofRotation theta epsilon =
    if epsilon ^ 2 / 2 = 0 ∨ 1 - (1 - epsilon ^ 2 / 2) ^ 2 = 0 then .error .undefined else .ok (exact theta epsilon) := by
  have hturn : half (-theta) = -theta / 2 := half_real _
  have hh : half (square epsilon) = epsilon ^ 2 / 2 := by rw [half_real, square_real]
  rw [ofRotation]
  dsimp only [bind, Except.bind]
  rw [hturn, hh, square_real, square_real]
  by_cases halong : epsilon ^ 2 / 2 = 0
  · rw [if_pos (.inl halong), quotient, if_pos ((isZero_real _).2 (by rw [halong]; norm_num))]
  · rw [quotient_real _ (pow_ne_zero 2 halong)]
    dsimp only
    by_cases hacross : 1 - (1 - epsilon ^ 2 / 2) ^ 2 = 0
    · rw [if_pos (.inr hacross), quotient, if_pos ((isZero_real _).2 hacross)]
    · rw [if_neg (not_or.2 ⟨halong, hacross⟩), quotient_real _ hacross]
      simp only [square_real]
      rw [exact_eq]
      rfl

theorem ofRotation_real (h0 : 0 < epsilon) (h1 : epsilon < 1) : ofRotation theta epsilon = .ok (exact theta epsilon) := by
  obtain ⟨hpos, -, hwide⟩ := extents_pos h0 h1
  rw [ofRotation_eq, if_neg (not_or.2 ⟨hpos.ne', hwide.ne'⟩)]

theorem eq_exact_of_ofRotation {s : Segment ℝ} (h : ofRotation theta epsilon = .ok s) : exact theta epsilon = s := by
  rw [ofRotation_eq] at h
  split at h
  · cases h
  · exact Except.ok.inj h

theorem isDegenerate_exact (h0 : 0 < epsilon) (h1 : epsilon < 1) :
    (exact theta epsilon).ellipse.isDegenerate = false := by
  obtain ⟨hpos, -, hwide⟩ := extents_pos h0 h1
  have hturn := Real.sin_sq_add_cos_sq (-theta / 2)
  rw [Ellipse.isDegenerate_eq_false_iff, Ellipse.det_real, exact_eq]
  dsimp only
  generalize Real.sin (-theta / 2) = s at *
  generalize Real.cos (-theta / 2) = c at *
  generalize hA : 1 / (epsilon ^ 2 / 2) ^ 2 = A
  generalize hB : 1 / (1 - (1 - epsilon ^ 2 / 2) ^ 2) = B
  have hApos : 0 < A := hA ▸ by positivity
  have hBpos : 0 < B := hB ▸ by positivity
  have hmean {x y : ℝ} (hxy : x ^ 2 + y ^ 2 = 1) : 0 < y ^ 2 * A + x ^ 2 * B := by
    rcases eq_or_ne x 0 with rfl | hx
    · have hy : y ^ 2 = 1 := by linarith
      rw [hy]
      linarith
    · positivity
  refine ⟨hmean hturn, hmean (by linarith), ?_⟩
  have hdet : (c ^ 2 * A + s ^ 2 * B) * (s ^ 2 * A + c ^ 2 * B) - (c * s * (A - B)) ^ 2 = A * B := by
    linear_combination A * B * (s ^ 2 + c ^ 2 + 1) * hturn
  rw [hdet]
  positivity

theorem turned_parts (theta : ℝ) (u : ℂ) :
    (u * Complex.exp ((theta / 2 : ℝ) * Complex.I)).re = u.re * Real.cos (theta / 2) - u.im * Real.sin (theta / 2) ∧
      (u * Complex.exp ((theta / 2 : ℝ) * Complex.I)).im =
        u.re * Real.sin (theta / 2) + u.im * Real.cos (theta / 2) := by
  rw [Complex.mul_re, Complex.mul_im, Complex.exp_ofReal_mul_I_re, Complex.exp_ofReal_mul_I_im]
  exact ⟨rfl, rfl⟩

theorem projection_exact (u : ℂ) : (exact theta epsilon).projection (u.re, u.im) =
    (u * Complex.exp ((theta / 2 : ℝ) * Complex.I)).re := by
  rw [(turned_parts theta u).1]
  simp only [projection, exact_eq, neg_div, Real.cos_neg, Real.sin_neg]
  ring

/-- The form of the ellipse, measured along the target and across it. -/
theorem form_exact (u : ℂ) : (exact theta epsilon).ellipse.form (u.re - (exact theta epsilon).ellipse.centre.1)
      (u.im - (exact theta epsilon).ellipse.centre.2) =
    ((u * Complex.exp ((theta / 2 : ℝ) * Complex.I)).re - (1 - epsilon ^ 2 / 2)) ^ 2 / (epsilon ^ 2 / 2) ^ 2 +
      (u * Complex.exp ((theta / 2 : ℝ) * Complex.I)).im ^ 2 / (1 - (1 - epsilon ^ 2 / 2) ^ 2) := by
  have hturn := Real.sin_sq_add_cos_sq (theta / 2)
  rw [(turned_parts theta u).1, (turned_parts theta u).2, div_eq_mul_one_div, div_eq_mul_one_div (_ ^ 2) (1 - _)]
  simp only [Ellipse.form_eq, exact_eq, neg_div, Real.cos_neg, Real.sin_neg]
  generalize Real.sin (theta / 2) = s at *
  generalize Real.cos (theta / 2) = c at *
  generalize 1 / (epsilon ^ 2 / 2) ^ 2 = A
  generalize 1 / (1 - (1 - epsilon ^ 2 / 2) ^ 2) = B
  generalize 1 - epsilon ^ 2 / 2 = d
  linear_combination -A * d * (2 * (u.re * c - u.im * s) - d * (s ^ 2 + c ^ 2 + 1)) * hturn

/-- The ellipse of a segment encloses it. -/
theorem mem_ellipse_of_mem (h0 : 0 < epsilon) (h1 : epsilon < 1) {u : ℂ} (hu : u ∈ rotationSegment theta epsilon) :
    (u.re, u.im) ∈ (exact theta epsilon).ellipse.points := by
  obtain ⟨hnorm, hchord⟩ := mem_rotationSegment_iff.1 hu
  obtain ⟨hpos, hlt, -⟩ := extents_pos h0 h1
  change (exact theta epsilon).ellipse.form _ _ ≤ 1
  rw [form_exact]
  have hdisk : (u * Complex.exp ((theta / 2 : ℝ) * Complex.I)).re ^ 2 +
      (u * Complex.exp ((theta / 2 : ℝ) * Complex.I)).im ^ 2 ≤ 1 := by
    rw [pow_two, pow_two, ← Complex.normSq_apply, ← Complex.sq_norm, norm_mul, Complex.norm_exp_ofReal_mul_I, mul_one]
    exact pow_le_one₀ (norm_nonneg u) hnorm
  have h := sq_div_add_sq_div_le_one (by linarith) (by linarith) hchord hdisk
  rwa [sub_sub_cancel] at h

/-- Membership at exact scalars is membership. -/
theorem inside_exact {u : CycloFrac E} (hE : Stores E (2 * load u.exp)) :
    (exact theta epsilon).inside u = true ↔ u.value ∈ rotationSegment theta epsilon := by
  have := hE.succ_of_double
  rw [inside, Bool.and_eq_true, Disk.inside_iff, atMost_real, CycloFrac.eval_real, projection_exact, exact_eq,
    mem_rotationSegment_iff]

/-! ### The boxes of an enumeration -/

theorem disk_isDegenerate : (Disk.ellipse : Ellipse ℝ).isDegenerate = false := by
  rw [Ellipse.isDegenerate_eq_false_iff, Ellipse.det_real]
  norm_num [Disk.ellipse]

theorem mem_disk_of_inside {u : CycloFrac E} [Stores E (2 * load u.exp)] (h : Disk.inside u = true) :
    (u.value.re, u.value.im) ∈ (Disk.ellipse : Ellipse ℝ).points := by
  change (Disk.ellipse : Ellipse ℝ).form (u.value.re - 0) (u.value.im - 0) ≤ 1
  have hsq : u.value.re ^ 2 + u.value.im ^ 2 = ‖u.value‖ ^ 2 := by
    rw [Complex.sq_norm, Complex.normSq_apply, pow_two, pow_two]
  have hdisk := pow_le_one₀ (norm_nonneg u.value) ((Disk.inside_iff u).1 h) (n := 2)
  simp only [Ellipse.form_eq, Disk.ellipse]
  linarith

/-- The box of the preimage of an ellipse contains the preimages of its points. -/
theorem exists_box_pullBack {e : Ellipse ℝ} (he : e.isDegenerate = false) {g inv : PlaneOp E} (hE : Stores E (2 * g.depth))
    (h : g.inverse = .ok inv) :
    ∃ b, (e.pullBack g.eval inv.eval).box = .ok b ∧ ∀ p ∈ e.points, (inv.eval : Square ℝ).act p ∈ b.points := by
  have hinv := (PlaneOp.eval_compose_inverse hE h).2
  obtain ⟨b, hb, htight⟩ := Ellipse.exists_box_isTight (Ellipse.isDegenerate_pullBack hinv he)
  refine ⟨b, hb, fun p hp => htight.encloses ?_⟩
  have hback : (g.eval : Square ℝ).act ((inv.eval : Square ℝ).act p) = p := by
    rw [← Square.act_mul, hinv]
    simp [Square.act]
  rwa [Ellipse.mem_pullBack_iff e hinv, hback]

/-- What is known of the segment of a rotation. -/
structure IsEnclosed (E : Type) [Exponent E] (theta epsilon : ℝ) (s : Segment ℝ) : Prop where
  /-- The ellipse is one. -/
  nondegenerate : s.ellipse.isDegenerate = false
  /-- Membership of a point of `𝔻[ω]`, where the exponent of its squared absolute value can be stored. -/
  inside_iff (u : CycloFrac E) (hE : Stores E (2 * load u.exp)) : s.inside u = true ↔ u.value ∈ rotationSegment theta epsilon
  /-- The ellipse encloses the segment. -/
  mem_ellipse : ∀ u ∈ rotationSegment theta epsilon, (u.re, u.im) ∈ s.ellipse.points

/-- The boxes that an enumeration of a segment starts from, those of the preimages under a map and its conjugate. -/
structure StartBoxes (theta epsilon : ℝ) (s : Segment ℝ) (g inv : PlaneOp E) (first second : Box ℝ) : Prop where
  /-- They are found. -/
  found : ∃ images, UprightPair.preimages s.ellipse Disk.ellipse g = .ok images ∧ images.1.box = .ok first ∧
    images.2.box = .ok second
  /-- The first one contains the preimages of the segment. -/
  mem_first : ∀ u ∈ rotationSegment theta epsilon, ((inv.eval : Square ℝ).act (u.re, u.im)).1 ∈ first.x.numbers
  /-- The first one contains the preimages of the points of `𝔻[ω]` in the segment. -/
  apply_mem_first (u : CycloFrac E) (hE : Stores E (2 * load u.exp)) (himage : Stores E (g.depth + (load u.exp + 1)))
    (hu : s.inside u = true) : (inv.apply u).value.re ∈ first.x.numbers
  /-- The second one contains the preimages of the conjugates that lie in the disk. -/
  apply_mem_second : ∃ invb, g.bullet.inverse = .ok invb ∧ ∀ u : CycloFrac E, Stores E (2 * load u.exp) →
    Stores E (g.depth + (load u.exp + 1)) → Disk.inside u.bullet = true → (invb.apply u.bullet).value.re ∈ second.x.numbers

/-- The boxes of the preimages of a segment and of the disk contain the preimages of the points of the segment and of their
conjugates. -/
theorem exists_startBoxes {s : Segment ℝ} (h0 : 0 < epsilon) (h1 : epsilon < 1) (hs : ofRotation theta epsilon = .ok s)
    {g inv : PlaneOp E} (hE : Stores E (2 * g.depth)) (h : g.inverse = .ok inv) :
    ∃ first second, StartBoxes theta epsilon s g inv first second := by
  obtain rfl := eq_exact_of_ofRotation hs
  obtain ⟨invb, hinvb⟩ := PlaneOp.exists_inverse_bullet h
  obtain ⟨first, hfirst, hmem⟩ := exists_box_pullBack (isDegenerate_exact h0 h1) hE h
  obtain ⟨second, hsecond, hmemb⟩ := exists_box_pullBack (g := g.bullet) disk_isDegenerate hE hinvb
  refine ⟨first, second, ⟨_, UprightPair.preimages_eq _ _ h hinvb, hfirst, hsecond⟩, fun u hu => ?_, fun u husq himage hu => ?_,
    invb, hinvb, fun u husq himage hu => ?_⟩
  · exact (hmem _ (mem_ellipse_of_mem h0 h1 hu)).1
  · have hpoint := hmem _ (mem_ellipse_of_mem h0 h1 ((inside_exact husq).1 hu))
    rw [PlaneOp.act_eval (by rwa [PlaneOp.depth_inverse h])] at hpoint
    exact hpoint.1
  · have : Stores E (2 * load u.bullet.exp) := husq
    have himage' : Stores E (invb.depth + (load u.bullet.exp + 1)) := by
      rw [PlaneOp.depth_inverse hinvb]
      exact himage
    have hpoint := hmemb _ (mem_disk_of_inside hu)
    rw [PlaneOp.act_eval himage'] at hpoint
    exact hpoint.1

/-- The exponents of the map of an upright pair can be doubled. -/
theorem stores_of_ofEllipses {K : Type} [NumericScalar K] {a b : Ellipse K} {pair : UprightPair K E}
    (h : UprightPair.ofEllipses a b = .ok (some pair)) : Stores E (2 * pair.op.depth) := by
  have hproduct := UprightPair.ofEllipses_safely (E := E) a b
  rw [h] at hproduct
  exact (hproduct pair rfl).isSmallGridOp.stores_two_mul_depth

/-- An upright pair carries the boxes of the preimages under its map. -/
theorem boxes_of_ofEllipses {K : Type} [NumericScalar K] {a b : Ellipse K} {pair : UprightPair K E}
    (h : UprightPair.ofEllipses a b = .ok (some pair)) :
    ∃ images inv, pair.op.inverse = .ok inv ∧ UprightPair.preimages a b pair.op = .ok images ∧
      images.1.box = .ok pair.first ∧ images.2.box = .ok pair.second := by
  rw [UprightPair.ofEllipses] at h
  split at h
  · cases h
  · obtain ⟨na, -, h⟩ := exists_of_bind_ok h
    obtain ⟨nb, -, h⟩ := exists_of_bind_ok h
    obtain ⟨⟨g, left⟩, -, h⟩ := exists_of_bind_ok h
    obtain ⟨images, himages, h⟩ := exists_of_bind_ok h
    obtain ⟨first, hfirst, h⟩ := exists_of_bind_ok h
    obtain ⟨second, hsecond, h⟩ := exists_of_bind_ok h
    cases h
    obtain ⟨inv, hinv, -⟩ := exists_of_bind_ok himages
    exact ⟨images, inv, hinv, himages, hfirst, hsecond⟩

/-- Without rounding, ellipses enclose what they are to enclose, and so do their boxes. -/
structure Enclosures (E : Type) [Exponent E] : Prop where
  /-- The ellipse of a segment encloses it. -/
  segment (theta epsilon : ℝ) (h0 : 0 < epsilon) (h1 : epsilon < 1) :
    ∃ s, ofRotation theta epsilon = .ok s ∧ IsEnclosed E theta epsilon s
  /-- Preimages of ellipses are ellipses and consist of the preimages of their points. -/
  pullBack (e : Ellipse ℝ) (g gInv : Square ℝ) (he : e.isDegenerate = false) (h : g * gInv = ⟨1, 0, 0, 1⟩) :
    (e.pullBack g gInv).isDegenerate = false ∧ ∀ p, p ∈ (e.pullBack g gInv).points ↔ g.act p ∈ e.points
  /-- The box of an ellipse is the smallest one. -/
  box (e : Ellipse ℝ) (he : e.isDegenerate = false) : ∃ b, e.box = .ok b ∧ b.IsTight e.points
  /-- The boxes of the preimages of a segment and of the disk contain the preimages of all points of the segment, and of their
  conjugates. -/
  start (theta epsilon : ℝ) (s : Segment ℝ) (h0 : 0 < epsilon) (h1 : epsilon < 1) (hs : ofRotation theta epsilon = .ok s)
    (g inv : PlaneOp E) (hE : Stores E (2 * g.depth)) (h : g.inverse = .ok inv) :
    ∃ first second, StartBoxes theta epsilon s g inv first second
  /-- These are the boxes that an enumeration is given, with any numbers for the ellipses, and the exponents of its map are no
  obstacle. -/
  given (K : Type) [NumericScalar K] (a b : Ellipse K) (pair : UprightPair K E)
    (h : UprightPair.ofEllipses a b = .ok (some pair)) :
    Stores E (2 * pair.op.depth) ∧ ∃ images inv, pair.op.inverse = .ok inv ∧ UprightPair.preimages a b pair.op = .ok images ∧
      images.1.box = .ok pair.first ∧ images.2.box = .ok pair.second

/-- Without rounding, the ellipse of a segment encloses it, preimages of ellipses consist of the preimages of their points,
and boxes of ellipses are the smallest ones. So the boxes that an enumeration starts from, those of the preimages under some
map, contain the preimages of all points of the segment, and of their conjugates. -/
theorem ellipse_and_boxes_enclose (E : Type) [Exponent E] : Enclosures E where
  segment _ _ h0 h1 :=
    ⟨_, ofRotation_real h0 h1, isDegenerate_exact h0 h1, fun _ => inside_exact, fun _ => mem_ellipse_of_mem h0 h1⟩
  pullBack e _ _ he h := ⟨Ellipse.isDegenerate_pullBack h he, Ellipse.mem_pullBack_iff e h⟩
  box _ := Ellipse.exists_box_isTight
  start _ _ _ h0 h1 hs _ _ := exists_startBoxes h0 h1 hs
  given _ _ _ _ _ h := ⟨stores_of_ofEllipses h, boxes_of_ofEllipses h⟩

/-- The tip of the segment of the rotation by one half, seen through the step `K`. -/
theorem ellipse_and_boxes_enclose_tip :
    ∃ s : Segment ℝ, ofRotation (1 / 2) (1 / 5) = .ok s ∧
      (Real.cos (1 / 2 / 2), -Real.sin (1 / 2 / 2)) ∈ s.ellipse.points ∧
      ∃ images first inv, (Elementary.K.op : PlaneOp UInt32).inverse = .ok inv ∧
        UprightPair.preimages s.ellipse Disk.ellipse (Elementary.K.op : PlaneOp UInt32) = .ok images ∧
        images.1.box = .ok first ∧
        ((inv.eval : Square ℝ).act (Real.cos (1 / 2 / 2), -Real.sin (1 / 2 / 2))).1 ∈ first.x.numbers := by
  have htip : (⟨Real.cos (1 / 2 / 2), -Real.sin (1 / 2 / 2)⟩ : ℂ) ∈ rotationSegment (1 / 2) (1 / 5) := by
    have hturn := Real.cos_sq_add_sin_sq (1 / 2 / 2)
    refine mem_rotationSegment_iff.2 ⟨?_, ?_⟩
    · rw [← sq_le_one_iff₀ (norm_nonneg _), Complex.sq_norm, Complex.normSq_mk]
      linarith
    · rw [(turned_parts _ _).1]
      dsimp only
      linarith
  obtain ⟨s, hs, henclosed⟩ := (ellipse_and_boxes_enclose UInt32).segment (1 / 2) (1 / 5) (by norm_num) (by norm_num)
  obtain ⟨first, _, hboxes⟩ := (ellipse_and_boxes_enclose UInt32).start (1 / 2) (1 / 5) s (by norm_num) (by norm_num) hs
    Elementary.K.op ⟨⟨⟨1, 0⟩, 1⟩, ⟨⟨1, 0⟩, 1⟩, ⟨⟨-1, -1⟩, 1⟩, ⟨⟨1, -1⟩, 1⟩⟩ (.of_lt (by decide)) rfl
  obtain ⟨images, himages, hfirst, -⟩ := hboxes.found
  exact ⟨s, hs, henclosed.mem_ellipse _ htip, images, first, _, rfl, himages, hfirst, hboxes.mem_first _ htip⟩

end Segment

end CliffordT

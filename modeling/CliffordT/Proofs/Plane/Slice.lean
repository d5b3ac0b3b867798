import CliffordT.Proofs.Plane.Enclosure

/-!
Slices of the disk and of a segment along lines, in exact arithmetic.

Along a line the squared distance from the origin is a quadratic polynomial of the parameter, and it is at most one between the
roots of that polynomial less one. The chord cuts off one end of this interval, or all of it or nothing if the line is
parallel to the chord. No branch loses an end.
-/

namespace CliffordT

open Exponent Scalar
open scoped ExactReal

/-- An interval that consists of exactly the given numbers, and none exactly if there are no such numbers. -/
structure IsSlice (found : Option (Interval ℝ)) (numbers : Set ℝ) : Prop where
  numbers_eq : ∀ i, found = some i → i.numbers = numbers
  eq_none_iff : found = none ↔ numbers = ∅

namespace IsSlice

theorem empty : IsSlice none ∅ := ⟨fun _ h => (Option.some_ne_none _ h.symm).elim, by simp⟩

theorem interval {lo hi : ℝ} (h : lo ≤ hi) : IsSlice (some ⟨lo, hi⟩) (Set.Icc lo hi) where
  numbers_eq i hi := by
    cases hi
    rfl
  eq_none_iff := by
    rw [Set.Icc_eq_empty_iff, not_le]
    exact ⟨fun h => (Option.some_ne_none _ h).elim, fun hlt => absurd h hlt.not_ge⟩

/-- An interval that may be empty is kept only if it is not. -/
theorem filter (lo hi : ℝ) :
    IsSlice ((some (⟨lo, hi⟩ : Interval ℝ)).filter fun i => !i.isEmpty) (Set.Icc lo hi) := by
  by_cases h : hi < lo
  · rw [Set.Icc_eq_empty h.not_ge, Option.filter_some, if_neg]
    · exact empty
    · simpa [Interval.isEmpty, less_real] using h
  · rw [Option.filter_some, if_pos]
    · exact interval (not_lt.1 h)
    · simpa [Interval.isEmpty, ← less_real] using h

/-- An interval has one set of numbers. -/
theorem unique {found : Option (Interval ℝ)} {numbers others : Set ℝ} (h : IsSlice found numbers)
    (h' : IsSlice found others) : numbers = others := by
  cases found with
  | none => rw [h.eq_none_iff.1 rfl, h'.eq_none_iff.1 rfl]
  | some i => rw [← h.numbers_eq i rfl, h'.numbers_eq i rfl]

/-- A single number is an interval of its own. -/
theorem eq_of_singleton {found : Option (Interval ℝ)} {t : ℝ} (h : IsSlice found {t}) : found = some ⟨t, t⟩ := by
  cases found with
  | none => exact absurd (h.eq_none_iff.1 rfl) (Set.singleton_ne_empty t)
  | some i =>
    obtain ⟨hlo, hhi⟩ := Set.Icc_eq_singleton_iff.1 (h.numbers_eq i rfl)
    cases i
    dsimp only at hlo hhi
    rw [hlo, hhi]

end IsSlice

/-! ### Quadratic polynomials -/

/-- The number that both roots are found from: the larger root in size, times the leading coefficient. -/
theorem quadratic_pivot {b d : ℝ} (hd : 0 ≤ d) {q : ℝ}
    (h : (if isNegative b then half (√d - b) else -half (b + √d)) = q) :
    q * (q + b) = (d - b ^ 2) / 4 ∧ (q = 0 → b = 0) := by
  have hroot := Real.sq_sqrt hd
  have hnonneg := Real.sqrt_nonneg d
  rw [half_real, half_real] at h
  split at h
  · next hb =>
    rw [isNegative_real] at hb
    refine ⟨?_, fun h0 => by linarith⟩
    rw [← h]
    linear_combination hroot / 4
  · next hb =>
    rw [isNegative_real] at hb
    refine ⟨?_, fun h0 => by linarith⟩
    rw [← h]
    linear_combination hroot / 4

/-- Without a real root a polynomial stays positive, and with roots it is the product of its linear factors. -/
theorem quadraticRoots?_real {a : ℝ} (ha : 0 < a) (b c : ℝ) :
    (quadraticRoots? a b c = none ∧ b ^ 2 - 4 * a * c < 0) ∨
      ∃ r₁ r₂, quadraticRoots? a b c = some (r₁, r₂) ∧ r₁ ≤ r₂ ∧ ∀ t, a * t ^ 2 + b * t + c = a * ((t - r₁) * (t - r₂)) := by
  have hdiscriminant : square b - scale (a * c) 4 = b ^ 2 - 4 * a * c := by
    change b * b - a * c * ((4 : ℤ) : ℝ) = _
    push_cast
    ring
  rw [quadraticRoots?, if_neg (by simpa [isPositive_real] using ha)]
  dsimp only
  rw [hdiscriminant]
  by_cases hneg : b ^ 2 - 4 * a * c < 0
  · rw [if_pos ((isNegative_real _).2 hneg)]
    exact .inl ⟨rfl, hneg⟩
  · right
    rw [if_neg (mt (isNegative_real _).1 hneg)]
    obtain ⟨q, hq⟩ : ∃ q,
        (if isNegative b then half (sqrt (b ^ 2 - 4 * a * c) - b) else -half (b + sqrt (b ^ 2 - 4 * a * c))) = q := ⟨_, rfl⟩
    obtain ⟨hpivot, hzero⟩ := quadratic_pivot (not_lt.1 hneg) hq
    rw [hq]
    by_cases h0 : q = 0
    · -- a double root at zero, where the product of the roots says nothing
      have hb := hzero h0
      have hc : c = 0 := by
        rw [h0, hb] at hpivot
        have : a * c = 0 := by linarith
        exact (mul_eq_zero.1 this).resolve_left ha.ne'
      refine ⟨0, 0, by rw [if_pos ((isZero_real q).2 h0)], le_rfl, fun t => ?_⟩
      rw [hb, hc]
      ring
    · rw [if_neg (mt (isZero_real q).1 h0)]
      have hfactors : ∀ t, a * t ^ 2 + b * t + c = a * ((t - q / a) * (t - c / q)) := fun t => by
        field_simp
        linear_combination t * hpivot
      split
      · next hle => exact ⟨q / a, c / q, rfl, (atMost_real _ _).1 hle, hfactors⟩
      · next hle =>
        refine ⟨c / q, q / a, rfl, (not_le.1 (mt (atMost_real _ _).2 hle)).le, fun t => ?_⟩
        rw [hfactors, mul_comm (t - q / a)]

/-- The polynomial is at most zero from one root to the other. -/
theorem isSlice_quadraticRoots? {a : ℝ} (ha : 0 < a) (b c : ℝ) :
    IsSlice ((quadraticRoots? a b c).map fun (lo, hi) => ⟨lo, hi⟩) {t | a * t ^ 2 + b * t + c ≤ 0} := by
  obtain ⟨hnone, hneg⟩ | ⟨lo, hi, hsome, hle, hfactors⟩ := quadraticRoots?_real ha b c
  · have hempty : {t | a * t ^ 2 + b * t + c ≤ 0} = ∅ := by
      refine Set.eq_empty_of_forall_notMem fun t ht => ?_
      rw [Set.mem_ofPred_eq] at ht
      have := mul_nonpos_of_nonneg_of_nonpos ha.le ht
      nlinarith [sq_nonneg (2 * a * t + b)]
    rw [hnone, hempty]
    exact .empty
  · have hbetween : {t | a * t ^ 2 + b * t + c ≤ 0} = Set.Icc lo hi := by
      ext t
      rw [Set.mem_ofPred_eq, hfactors, Set.mem_Icc, ← sub_mul_sub_nonpos_iff t hle, ← not_lt, ← not_lt,
        mul_pos_iff_of_pos_left ha]
    rw [hsome, hbetween]
    exact .interval hle

/-! ### The disk -/

section Stored

variable {E : Type} [Exponent E]

/-- The point of a line with a given parameter. -/
noncomputable def linePoint (p v : CycloFrac E) (t : ℝ) : ℂ := p.value + t * v.value

theorem norm_linePoint_sq (p v : CycloFrac E) (t : ℝ) : ‖linePoint p v t‖ ^ 2 =
    ‖v.value‖ ^ 2 * t ^ 2 + ((starRingEnd ℂ) v.value * p.value).re * 2 * t + ‖p.value‖ ^ 2 := by
  simp only [linePoint, Complex.sq_norm, Complex.normSq_apply, Complex.add_re, Complex.add_im, Complex.mul_re, Complex.mul_im,
    Complex.ofReal_re, Complex.ofReal_im, Complex.conj_re, Complex.conj_im]
  ring

namespace Disk

/-- The coefficients are found from a product of the two points, where twice the larger of their exponents and one more can be
stored. -/
theorem polynomial_real {p v : CycloFrac E} (hE : Stores E (2 * max (load p.exp) (load v.exp) + 1)) :
    (polynomial p v : ℝ × ℝ × ℝ) =
      (‖v.value‖ ^ 2, ((starRingEnd ℂ) v.value * p.value).re * 2, ‖p.value‖ ^ 2 - 1) := by
  have : Stores E (2 * load p.exp) := hE.of_le (by omega)
  have : Stores E (2 * load v.exp) := hE.of_le (by omega)
  have : Stores E (load (CycloFrac.conj v).exp + load p.exp) := hE.of_le (by change load v.exp + load p.exp ≤ _; omega)
  have hexp : load (CycloFrac.conj v * p).exp = load v.exp + load p.exp := load_store (n := load (CycloFrac.conj v).exp + load p.exp)
  have : Stores E (load (CycloFrac.conj v * p).exp + 1) := hE.of_le (by omega)
  have hproduct : (CycloFrac.re (CycloFrac.conj v * p)).toReal = ((starRingEnd ℂ) v.value * p.value).re := by
    rw [← CycloFrac.value_re, RootFrac.value_mul, CycloFrac.value_conj]
  rw [polynomial, QuadFrac.eval_real, QuadFrac.eval_real, QuadFrac.eval_real, QuadFrac.toReal_sub, QuadFrac.toReal_one,
    CycloFrac.toReal_absSq, CycloFrac.toReal_absSq, hproduct]
  rfl

/-- The slice of the disk has the numbers at which the polynomial is at most zero. -/
theorem isSlice_of_polynomial {p v : CycloFrac E} {a b c : ℝ} (h : polynomial p v = (a, b, c)) (ha : 0 < a) :
    IsSlice (slice? p v) {t | a * t ^ 2 + b * t + c ≤ 0} := by
  rw [slice?, h]
  exact isSlice_quadraticRoots? ha b c

/-- The slice of the disk along a line. -/
theorem isSlice_slice? {p v : CycloFrac E} (hE : Stores E (2 * max (load p.exp) (load v.exp) + 1)) (hv : v.value ≠ 0) :
    IsSlice (slice? p v) {t | ‖linePoint p v t‖ ≤ 1} := by
  have hdisk : {t | ‖linePoint p v t‖ ≤ 1} =
      {t | ‖v.value‖ ^ 2 * t ^ 2 + ((starRingEnd ℂ) v.value * p.value).re * 2 * t + (‖p.value‖ ^ 2 - 1) ≤ 0} := by
    ext t
    rw [Set.mem_ofPred_eq, Set.mem_ofPred_eq, ← sq_le_one_iff₀ (norm_nonneg _), norm_linePoint_sq]
    constructor <;> intro h <;> linarith
  rw [hdisk]
  exact isSlice_of_polynomial (polynomial_real hE) (by positivity)

end Disk

/-! ### Segments -/

namespace Segment

theorem projection_linePoint (s : Segment ℝ) (p v : CycloFrac E) (t : ℝ) :
    s.projection ((linePoint p v t).re, (linePoint p v t).im) =
      s.projection (p.value.re, p.value.im) + s.projection (v.value.re, v.value.im) * t := by
  simp only [projection, linePoint, Complex.add_re, Complex.add_im, Complex.mul_re, Complex.mul_im, Complex.ofReal_re,
    Complex.ofReal_im]
  ring

/-- The chord cuts off the numbers on one side of a quotient, or all numbers or none. -/
theorem isSlice_cut (lo hi gap slope : ℝ) :
    IsSlice ((if isZero slope then if isPositive gap then none else some (⟨lo, hi⟩ : Interval ℝ)
      else if isPositive slope then some ⟨larger lo (gap / slope), hi⟩ else some ⟨lo, smaller hi (gap / slope)⟩).filter
        fun i => !i.isEmpty) (Set.Icc lo hi ∩ {t | gap ≤ slope * t}) := by
  by_cases hslope : slope = 0
  · rw [if_pos ((isZero_real _).2 hslope), hslope]
    simp only [zero_mul]
    by_cases hgap : 0 < gap
    · have hempty : Set.Icc lo hi ∩ {_t : ℝ | gap ≤ 0} = ∅ := by
        rw [Set.eq_empty_iff_forall_notMem]
        exact fun t ht => hgap.not_ge ht.2
      rw [if_pos ((isPositive_real _).2 hgap), hempty]
      exact .empty
    · have hall : Set.Icc lo hi ∩ {_t : ℝ | gap ≤ 0} = Set.Icc lo hi :=
        Set.inter_eq_left.2 fun t _ => not_lt.1 hgap
      rw [if_neg (mt (isPositive_real _).1 hgap), hall]
      exact .filter lo hi
  · rw [if_neg (mt (isZero_real _).1 hslope)]
    by_cases hpos : 0 < slope
    · have hcut : Set.Icc lo hi ∩ {t | gap ≤ slope * t} = Set.Icc (max lo (gap / slope)) hi := by
        ext t
        rw [Set.mem_inter_iff, Set.mem_ofPred_eq, ← div_le_iff₀' hpos, Set.mem_Icc, Set.mem_Icc, max_le_iff, and_right_comm]
      rw [if_pos ((isPositive_real _).2 hpos), larger_real, hcut]
      exact .filter _ _
    · have hneg : slope < 0 := lt_of_le_of_ne (not_lt.1 hpos) hslope
      have hcut : Set.Icc lo hi ∩ {t | gap ≤ slope * t} = Set.Icc lo (min hi (gap / slope)) := by
        ext t
        rw [Set.mem_inter_iff, Set.mem_ofPred_eq, ← le_div_iff_of_neg' hneg, Set.mem_Icc, Set.mem_Icc, le_min_iff, and_assoc]
      rw [if_neg (mt (isPositive_real _).1 hpos), smaller_real, hcut]
      exact .filter _ _

/-- The slice of a segment along a line. -/
theorem isSlice_slice? (s : Segment ℝ) {p v : CycloFrac E} (hE : Stores E (2 * max (load p.exp) (load v.exp) + 1))
    (hv : v.value ≠ 0) : IsSlice (s.slice? p v)
      ({t | ‖linePoint p v t‖ ≤ 1} ∩ {t | s.chord ≤ s.projection ((linePoint p v t).re, (linePoint p v t).im)}) := by
  have : Stores E (load p.exp + 1) := hE.of_le (by omega)
  have : Stores E (load v.exp + 1) := hE.of_le (by omega)
  have hdisk := Disk.isSlice_slice? hE hv
  rw [slice?]
  cases hfound : (Disk.slice? p v : Option (Interval ℝ)) with
  | none =>
    rw [hdisk.eq_none_iff.1 hfound, Set.empty_inter]
    exact .empty
  | some i =>
    rw [hfound] at hdisk
    have hbeyond : {t | s.chord ≤ s.projection ((linePoint p v t).re, (linePoint p v t).im)} =
        {t | s.chord - s.projection (p.value.re, p.value.im) ≤ s.projection (v.value.re, v.value.im) * t} := by
      ext t
      rw [Set.mem_ofPred_eq, Set.mem_ofPred_eq, projection_linePoint, sub_le_iff_le_add']
    rw [← hdisk.numbers_eq i rfl, hbeyond]
    dsimp only
    rw [CycloFrac.eval_real, CycloFrac.eval_real]
    exact isSlice_cut _ _ _ _

end Segment

end Stored

namespace Segment

/-- Without rounding, slices are exact along the lines for which the exponents of products of their two points can be stored. -/
structure Slices (E : Type) [Exponent E] : Prop where
  /-- The slice of the disk has exactly the parameters of the points in the disk. -/
  disk (p v : CycloFrac E) (hE : Stores E (2 * max (load p.exp) (load v.exp) + 1)) (hv : v.value ≠ 0) :
    IsSlice (Disk.slice? p v) {t | ‖linePoint p v t‖ ≤ 1}
  /-- A line that touches the disk has a slice of one number. -/
  tangent (p v : CycloFrac E) (hE : Stores E (2 * max (load p.exp) (load v.exp) + 1)) (hv : v.value ≠ 0) (t₀ : ℝ)
    (htangent : ∀ t, ‖linePoint p v t‖ ≤ 1 ↔ t = t₀) : Disk.slice? p v = some ⟨t₀, t₀⟩
  /-- There is a segment for every angle and every tolerance below one. -/
  exists_segment (theta epsilon : ℝ) (h0 : 0 < epsilon) (h1 : epsilon < 1) : ∃ s, ofRotation theta epsilon = .ok s
  /-- The slice of a segment has exactly the parameters of the points in the segment. -/
  segment (theta epsilon : ℝ) (s : Segment ℝ) (hs : ofRotation theta epsilon = .ok s) (p v : CycloFrac E)
    (hE : Stores E (2 * max (load p.exp) (load v.exp) + 1)) (hv : v.value ≠ 0) :
    IsSlice (s.slice? p v) {t | linePoint p v t ∈ rotationSegment theta epsilon}

/-- Slices are exact without rounding. The slice of the disk along a line has exactly the parameters of the points in the
disk, the slice of a segment those of the points in the segment, and there is none only if there are no such points; a line
that touches the disk has a slice of one number. With exponents of any size this holds for all lines. -/
theorem slices_exact (E : Type) [Exponent E] : Slices E where
  disk _ _ := Disk.isSlice_slice?
  tangent p v hE hv t₀ htangent := by
    have hpoint : {t | ‖linePoint p v t‖ ≤ 1} = {t₀} := Set.ext htangent
    exact (hpoint ▸ Disk.isSlice_slice? hE hv).eq_of_singleton
  exists_segment theta epsilon h0 h1 := ⟨_, ofRotation_real h0 h1⟩
  segment theta epsilon s hs p v hE hv := by
    obtain rfl := eq_exact_of_ofRotation hs
    have hsegment : {t | linePoint p v t ∈ rotationSegment theta epsilon} = {t | ‖linePoint p v t‖ ≤ 1} ∩
        {t | (exact theta epsilon).chord ≤
          (exact theta epsilon).projection ((linePoint p v t).re, (linePoint p v t).im)} := by
      ext t
      rw [Set.mem_ofPred_eq, mem_rotationSegment_iff, Set.mem_inter_iff, Set.mem_ofPred_eq, Set.mem_ofPred_eq, projection_exact,
        exact_eq]
    rw [hsegment]
    exact isSlice_slice? _ hE hv

/-- Twice the exponent of `1 / √2 ^ (2 ^ 31)` is no word, and from this point the slice along the first axis ends at the
point itself. -/
theorem not_isSlice_disk_half_word :
    ¬IsSlice (Disk.slice? (⟨1, 2147483648⟩ : CycloFrac UInt32) 1)
      {t | ‖linePoint (⟨1, 2147483648⟩ : CycloFrac UInt32) 1 t‖ ≤ 1} := by
  obtain ⟨b, hb, hpolynomial⟩ : ∃ b : ℝ, 0 < b ∧
      (Disk.polynomial (⟨1, 2147483648⟩ : CycloFrac UInt32) 1 : ℝ × ℝ × ℝ) = (1, b, 0) := by
    have hone : CycloFrac.absSq (1 : CycloFrac UInt32) = 1 := by decide
    have hproduct : CycloFrac.re (CycloFrac.conj 1 * (⟨1, 2147483648⟩ : CycloFrac UInt32)) = ⟨QuadInt.root, 2147483649⟩ := by
      decide +kernel
    have hwrapped : CycloFrac.absSq (⟨1, 2147483648⟩ : CycloFrac UInt32) - 1 = 0 := by decide +kernel
    refine ⟨_, ?_, by rw [Disk.polynomial, hone, hproduct, hwrapped, QuadFrac.eval_real, QuadFrac.eval_real, QuadFrac.eval_real,
      QuadFrac.toReal_one, QuadFrac.toReal_zero]⟩
    rw [QuadFrac.toReal_eq, QuadInt.realHom_root]
    exact mul_pos (by positivity) (by norm_num)
  intro h
  have hsmall : ‖(⟨1, 2147483648⟩ : CycloFrac UInt32).value‖ ≤ 1 / 2 := by
    rw [RootFrac.value_mk, NumberRing.value_one, norm_div, norm_one, norm_pow, sqrtTwo_eq_ofReal, Complex.norm_real,
      Real.norm_of_nonneg (Real.sqrt_nonneg 2)]
    refine one_div_le_one_div_of_le two_pos ?_
    calc (2 : ℝ) = √2 ^ 2 := (Real.sq_sqrt zero_le_two).symm
      _ ≤ √2 ^ load (2147483648 : UInt32) := pow_le_pow_right₀ (Real.one_le_sqrt.2 one_le_two) (by decide)
  have hhalf : (1 / 2 : ℝ) ∈ {t | ‖linePoint (⟨1, 2147483648⟩ : CycloFrac UInt32) 1 t‖ ≤ 1} := by
    rw [Set.mem_ofPred_eq, linePoint, RootFrac.value_one, mul_one]
    refine (norm_add_le _ _).trans ?_
    rw [Complex.norm_real, Real.norm_of_nonneg (by norm_num)]
    linarith
  rw [h.unique (Disk.isSlice_of_polynomial hpolynomial one_pos), Set.mem_ofPred_eq] at hhalf
  linarith

/-- The line that touches the circle at one, which is a point of the segment of the rotation by zero. Another line, from a point
whose exponent is too large. -/
theorem slices_exact_tangent :
    Disk.slice? (1 : CycloFrac UInt32) CycloFrac.imaginaryUnit = some (⟨0, 0⟩ : Interval ℝ) ∧
      (∃ s, ofRotation 0 (1 / 5) = .ok s ∧
        s.slice? (1 : CycloFrac UInt32) CycloFrac.imaginaryUnit = some (⟨0, 0⟩ : Interval ℝ)) ∧
      ¬IsSlice (Disk.slice? (⟨1, 2147483648⟩ : CycloFrac UInt32) 1)
        {t | ‖linePoint (⟨1, 2147483648⟩ : CycloFrac UInt32) 1 t‖ ≤ 1} := by
  have hv : (CycloFrac.imaginaryUnit : CycloFrac UInt32).value ≠ 0 := by
    rw [CycloFrac.value_imaginaryUnit]
    exact Complex.I_ne_zero
  have hline : ∀ t : ℝ, linePoint (1 : CycloFrac UInt32) CycloFrac.imaginaryUnit t = ⟨1, t⟩ := fun t => by
    rw [linePoint, CycloFrac.value_imaginaryUnit, RootFrac.value_one]
    apply Complex.ext <;> simp
  have htangent : ∀ t : ℝ, ‖linePoint (1 : CycloFrac UInt32) CycloFrac.imaginaryUnit t‖ ≤ 1 ↔ t = 0 := fun t => by
    rw [hline, ← sq_le_one_iff₀ (norm_nonneg _), Complex.sq_norm, Complex.normSq_mk, mul_one, add_le_iff_nonpos_right,
      ← pow_two, sq_nonpos_iff]
  have hE : Stores UInt32 (2 * max (load (1 : CycloFrac UInt32).exp) (load (CycloFrac.imaginaryUnit : CycloFrac UInt32).exp) + 1) :=
    .of_lt (by decide)
  have hslices := slices_exact UInt32
  obtain ⟨s, hs⟩ := hslices.exists_segment 0 (1 / 5) (by norm_num) (by norm_num)
  refine ⟨hslices.tangent 1 CycloFrac.imaginaryUnit hE hv 0 htangent, ⟨s, hs, ?_⟩, not_isSlice_disk_half_word⟩
  have hsegment : {t | linePoint (1 : CycloFrac UInt32) CycloFrac.imaginaryUnit t ∈ rotationSegment 0 (1 / 5)} = {0} := by
    ext t
    rw [Set.mem_ofPred_eq, mem_rotationSegment_iff, htangent, hline, Set.mem_singleton_iff]
    refine and_iff_left_of_imp fun _ => ?_
    norm_num
  exact (hsegment ▸ hslices.segment 0 (1 / 5) s hs 1 CycloFrac.imaginaryUnit hE hv).eq_of_singleton

end Segment

end CliffordT

import CliffordT.Proofs.Gate.Column
import CliffordT.Proofs.Plane.Enclosure
import CliffordT.Proofs.Rotation.Distance
import CliffordT.Proofs.Rotation.Unbounded
import Mathlib.Analysis.InnerProductSpace.SingularValues
import Mathlib.Analysis.InnerProductSpace.Trace
import Mathlib.Analysis.Matrix.PosDef
import Mathlib.Analysis.Matrix.Spectrum

/-!
The two measures of the error are one, without rounding.

The largest singular value of a two-by-two matrix is a root of a quadratic equation whose coefficients are the trace and the
determinant of its Gram matrix, which gives the closed form for the norm. The difference of two matrices of determinant
one has a multiple of the identity for its Gram matrix, so that there the closed form is the length of a column, and
the length of the column depends on the top left entry alone.
-/

namespace CliffordT

open Exponent Scalar
open scoped ExactReal Matrix Matrix.Norms.L2Operator ComplexOrder

/-- The larger of two numbers, from their sum and their product. -/
theorem max_eq_of_add_of_mul {x y f d : ℝ} (hadd : x + y = f) (hmul : x * y = d) :
    max x y = (f + √(f ^ 2 - 4 * d)) / 2 := by
  have h := sup_eq_half_smul_add_add_abs_sub' ℝ x y
  rw [smul_eq_mul, ← div_eq_inv_mul, abs_sub_comm] at h
  rw [← hadd, ← hmul, show (x + y) ^ 2 - 4 * (x * y) = (x - y) ^ 2 by ring, Real.sqrt_sq_eq_abs]
  exact h

/-! ### The largest singular value -/

section Gram

variable (M : Matrix (Fin 2) (Fin 2) ℂ)

/-- The larger root of the characteristic polynomial of the Gram matrix. -/
noncomputable def gramTop : ℝ :=
  ((Mᴴ * M).trace.re + √((Mᴴ * M).trace.re ^ (2 : ℕ) - (4 : ℕ) * (Mᴴ * M).det.re)) / (2 : ℕ)

theorem max_eq_gramTop {x y : ℝ} (hadd : x + y = (Mᴴ * M).trace.re) (hmul : x * y = (Mᴴ * M).det.re) :
    max x y = gramTop M := by
  rw [max_eq_of_add_of_mul hadd hmul, gramTop, Nat.cast_ofNat, Nat.cast_ofNat]

theorem norm_fin_two (v : Fin 2 → ℂ) : ‖v‖ = max ‖v 0‖ ‖v 1‖ := by
  refine le_antisymm ?_ (max_le (norm_le_pi_norm v 0) (norm_le_pi_norm v 1))
  rw [pi_norm_le_iff_of_nonneg (le_max_of_le_left (norm_nonneg _)), Fin.forall_fin_two]
  exact ⟨le_max_left _ _, le_max_right _ _⟩

theorem norm_sq_eq_gramTop : ‖M‖ ^ 2 = gramTop M := by
  have hpos := Matrix.posSemidef_conjTranspose_mul_self M
  have hA := hpos.isHermitian
  have htrace : hA.eigenvalues 0 + hA.eigenvalues 1 = (Mᴴ * M).trace.re := by
    rw [hA.trace_eq_sum_eigenvalues, Fin.sum_univ_two]
    simp
  have hdet : hA.eigenvalues 0 * hA.eigenvalues 1 = (Mᴴ * M).det.re := by
    rw [hA.det_eq_prod_eigenvalues, Fin.prod_univ_two]
    simp
  have hnorm : ‖Mᴴ * M‖ = max (hA.eigenvalues 0) (hA.eigenvalues 1) := by
    conv_lhs => rw [hA.spectral_theorem, Unitary.conjStarAlgAut_apply, ← Unitary.coe_star,
      CStarRing.norm_mul_coe_unitary, CStarRing.norm_coe_unitary_mul, Matrix.l2_opNorm_diagonal, norm_fin_two]
    simp [abs_of_nonneg (hpos.eigenvalues_nonneg _)]
  rw [← max_eq_gramTop M htrace hdet, ← hnorm, sq, ← Matrix.l2_opNorm_conjTranspose_mul_self]

theorem singularValues_sq_eq_gramTop : (Matrix.toEuclideanLin M).singularValues 0 ^ 2 = gramTop M := by
  let T := Matrix.toEuclideanLin M
  have hfin : Module.finrank ℂ (EuclideanSpace ℂ (Fin 2)) = 2 := finrank_euclideanSpace_fin
  have hgram : T.adjoint ∘ₗ T = Matrix.toEuclideanLin (Mᴴ * M) := by
    rw [← Matrix.toEuclideanLin_conjTranspose_eq_adjoint, ← Matrix.toLpLin_mul_same]
  have hsym := T.isSymmetric_adjoint_comp_self
  have htrace : hsym.eigenvalues hfin 0 + hsym.eigenvalues hfin 1 = (Mᴴ * M).trace.re := by
    rw [← Fin.sum_univ_two, ← hsym.re_trace_eq_sum_eigenvalues hfin, hgram,
      Matrix.toEuclideanLin_eq_toLin_orthonormal, Matrix.trace_toLin_eq]
    rfl
  have hdet : hsym.eigenvalues hfin 0 * hsym.eigenvalues hfin 1 = (Mᴴ * M).det.re := by
    rw [← LinearMap.det_toLpLin 2 (Mᴴ * M), ← hgram, hsym.det_eq_prod_eigenvalues hfin, Fin.prod_univ_two]
    simp
  rw [← max_eq_gramTop M htrace hdet, max_eq_left (hsym.eigenvalues_antitone hfin (Fin.zero_le 1))]
  exact T.sq_singularValues_fin hfin 0

end Gram

/-- The matrix with entries given by their parts. -/
noncomputable def Square.toMatrix (m : Square (ℝ × ℝ)) : Matrix (Fin 2) (Fin 2) ℂ :=
  !![⟨m.m₀₀.1, m.m₀₀.2⟩, ⟨m.m₀₁.1, m.m₀₁.2⟩; ⟨m.m₁₀.1, m.m₁₀.2⟩, ⟨m.m₁₁.1, m.m₁₁.2⟩]

theorem operatorNorm_real (m : Square (ℝ × ℝ)) : operatorNorm m = √(gramTop m.toMatrix) := by
  have htrace : (m.toMatrixᴴ * m.toMatrix).trace.re =
      [m.m₀₀, m.m₁₀, m.m₀₁, m.m₁₁].foldl (fun acc z => acc + square z.1 + square z.2) 0 := by
    simp only [Square.toMatrix, Matrix.trace_fin_two, Matrix.mul_apply, Fin.sum_univ_two, Matrix.conjTranspose_apply,
      List.foldl_cons, List.foldl_nil, square_real]
    simp
    ring
  have hdet : (m.toMatrixᴴ * m.toMatrix).det.re =
      square ((complexMul m.m₀₀ m.m₁₁).1 - (complexMul m.m₀₁ m.m₁₀).1) +
        square ((complexMul m.m₀₀ m.m₁₁).2 - (complexMul m.m₀₁ m.m₁₀).2) := by
    rw [Matrix.det_mul, Matrix.det_conjTranspose, Square.toMatrix, Matrix.det_fin_two_of]
    simp only [complexMul, square_real]
    simp
    ring
  rw [gramTop, htrace, hdet, mul_comm ((4 : ℕ) : ℝ), ← square_real, Nat.cast_ofNat, Nat.cast_ofNat, ← half_real]
  rfl

theorem operatorNorm_eq_norm (m : Square (ℝ × ℝ)) : operatorNorm m = ‖m.toMatrix‖ := by
  rw [operatorNorm_real, ← norm_sq_eq_gramTop, Real.sqrt_sq (norm_nonneg _)]

theorem operatorNorm_eq_singularValues (m : Square (ℝ × ℝ)) :
    operatorNorm m = (Matrix.toEuclideanLin m.toMatrix).singularValues 0 := by
  rw [operatorNorm_real, ← singularValues_sq_eq_gramTop, Real.sqrt_sq (LinearMap.singularValues_nonneg _ 0)]

/-! ### Operators of determinant one -/

variable {E : Type} [Exponent E]

theorem rotationError_real (u : CycloFrac E) [Stores E (load u.exp + 1)] (theta : ℝ) :
    rotationError u theta = √(2 - 2 * (u.value * Complex.exp ((theta / 2 : ℝ) * Complex.I)).re) := by
  rw [(Segment.turned_parts theta u.value).1, mul_comm 2, ← half_real theta]
  change √(((2 : ℤ) : ℝ) - ((u.eval : ℝ × ℝ).1 * _ - (u.eval : ℝ × ℝ).2 * _) * ((2 : ℤ) : ℝ)) = _
  rw [CycloFrac.eval_real, Int.cast_ofNat]

namespace QubitOp

theorem distance_eq_norm (op : QubitOp ℕ) (theta : ℝ) : op.distance theta = ‖op.matrix - rotation theta‖ := by
  let difference : Square (ℝ × ℝ) := Square.zipWith (fun a b => (a.1 - b.1, a.2 - b.2)) op.eval
    ⟨(Real.cos (half theta), -Real.sin (half theta)), (0, 0), (0, 0), (Real.cos (half theta), Real.sin (half theta))⟩
  have hdifference : difference.toMatrix = op.matrix - rotation theta := by
    rw [rotation_eq, ← half_real]
    ext i j
    fin_cases i <;> fin_cases j <;> apply Complex.ext <;>
      simp [difference, Square.toMatrix, Square.zipWith, eval, Square.map, CycloFrac.eval_real, matrix]
  rw [← hdifference, ← operatorNorm_eq_norm]
  rfl

/-- An operator of determinant one and top left entry `u` is at distance `√(2 - 2 Re (u e^(iθ/2)))` from a rotation. -/
theorem distance_eq_rotationError {op : QubitOp ℕ} (hop : op.isUnitary = true) (hphase : op.phase = 0) (theta : ℝ) :
    op.distance theta = rotationError op.z theta := by
  have hsum : ‖op.z.value‖ ^ 2 + ‖op.w.value‖ ^ 2 = 1 := by
    rw [isUnitary_iff, Complex.mul_conj', Complex.mul_conj'] at hop
    exact_mod_cast hop
  have hturn := Real.cos_sq_add_sin_sq (theta / 2)
  rw [distance_eq_norm, rotationError_real, (Segment.turned_parts theta op.z.value).1,
    ← Real.sqrt_sq (norm_nonneg (op.matrix - rotation theta)), matrix_eq, hphase, Fin.val_zero, pow_zero, mul_one,
    mul_one, norm_sub_rotation_sq]
  rw [Complex.sq_norm, Complex.normSq_apply] at hsum ⊢
  congr 1
  simp only [Complex.sub_re, Complex.sub_im]
  linear_combination hsum + hturn

end QubitOp

/-! ### Stored operators -/

namespace QubitOp

theorem completes_unbounded_iff {op : QubitOp E} {u t : CycloFrac E} :
    op.unbounded.Completes u.unbounded t.unbounded ↔ op.Completes u t :=
  ⟨fun h => ⟨h.z_eq, h.w_eq, h.phase_eq⟩, fun h => ⟨h.z_eq, h.w_eq, h.phase_eq⟩⟩

theorem completes_ofColumn_stored (u t : CycloFrac E) : (ofColumn u t).Completes u t := by
  rw [← completes_unbounded_iff, unbounded_ofColumn]
  exact completes_ofColumn _ _

theorem distance_eq_norm_stored {op : QubitOp E} (hE : Stores E (op.depth + 1)) (theta : ℝ) :
    op.distance theta = ‖op.matrix - rotation theta‖ := by
  rw [← distance_unbounded hE, distance_eq_norm]
  rfl

/-- What the exponents of a column and of an operator that completes it have to allow for. -/
abbrev StoresColumn (u t : CycloFrac E) (op : QubitOp E) : Prop :=
  Stores E (2 * max (max (load u.exp) (load t.exp)) op.depth)

theorem Completes.isUnitary {op : QubitOp E} {u t : CycloFrac E} (hop : op.Completes u t) (hE : StoresColumn u t op)
    (h : (CycloFrac.absSq u + CycloFrac.absSq t).same 1 = true) : op.isUnitary = true := by
  rw [← same_one_unbounded (hE.of_le (by omega))] at h
  rw [← isUnitary_unbounded (hE.of_le (by omega))]
  exact (completes_unbounded_iff.2 hop).isUnitary_iff.2 h

theorem Completes.distance_eq {op : QubitOp E} {u t : CycloFrac E} (hop : op.Completes u t) (hE : StoresColumn u t op)
    (h : (CycloFrac.absSq u + CycloFrac.absSq t).same 1 = true) (theta : ℝ) : op.distance theta = rotationError u theta := by
  have hunitary := hop.isUnitary hE h
  have hdepth : Stores E (2 * op.depth) := hE.of_le (by omega)
  have hexp : Stores E (2 * load u.exp) := hE.of_le (by omega)
  have := hexp.succ_of_double
  rw [← isUnitary_unbounded hdepth] at hunitary
  rw [← distance_unbounded hdepth.succ_of_double, distance_eq_rotationError hunitary hop.phase_eq, rotationError_real,
    rotationError_real, show op.unbounded.z.value = u.value from hop.z_eq]

theorem Completes.det_matrix {op : QubitOp E} {u t : CycloFrac E} (hop : op.Completes u t) (hE : StoresColumn u t op)
    (h : (CycloFrac.absSq u + CycloFrac.absSq t).same 1 = true) : op.matrix.det = 1 := by
  have hunitary := hop.isUnitary hE h
  rw [← isUnitary_unbounded (hE.of_le (by omega))] at hunitary
  have hdet := QubitOp.det_matrix hunitary
  rw [show op.unbounded.phase = 0 from hop.phase_eq, Fin.val_zero, pow_zero] at hdet
  exact hdet

end QubitOp

/-- The segment of a rotation holds the points of the disk with an error of at most `ε`. -/
theorem Segment.inside_iff_rotationError {theta epsilon : ℝ} {s : Segment ℝ} (h0 : 0 < epsilon)
    (hs : ofRotation theta epsilon = .ok s) {u : CycloFrac E} (hE : Stores E (2 * load u.exp)) :
    s.inside u = true ↔ ‖u.value‖ ≤ 1 ∧ rotationError u theta ≤ epsilon := by
  have := hE.succ_of_double
  rw [← eq_exact_of_ofRotation hs, inside_exact hE, mem_rotationSegment_iff, rotationError_real,
    Real.sqrt_le_left h0.le]
  refine and_congr_right fun _ => ⟨fun h => by linarith, fun h => by linarith⟩

/-- Without rounding, the measures of the error are one, for the exponents that can be stored. -/
structure DistancesAgree (E : Type) [Exponent E] : Prop where
  /-- The closed form for the norm of a matrix is its largest singular value, which is its operator norm. -/
  norm (m : Square (ℝ × ℝ)) : operatorNorm m = (Matrix.toEuclideanLin m.toMatrix).singularValues 0 ∧
    operatorNorm m = ‖m.toMatrix‖
  /-- So the distance of an operator from a rotation is that of their matrices. -/
  distance (op : QubitOp E) (hE : Stores E (op.depth + 1)) (theta : ℝ) : op.distance theta = ‖op.matrix - rotation theta‖
  /-- There is an operator that completes a column. -/
  completes (u t : CycloFrac E) : (QubitOp.ofColumn u t).Completes u t
  /-- An operator that completes a unit column is unitary of determinant one, and the shorter closed form gives its distance. -/
  column (u t : CycloFrac E) (hlength : (CycloFrac.absSq u + CycloFrac.absSq t).same 1 = true) (op : QubitOp E)
    (hop : op.Completes u t) (hE : QubitOp.StoresColumn u t op) : op.isUnitary = true ∧ op.matrix.det = 1 ∧
      ∀ theta : ℝ, rotationError u theta = op.distance theta
  /-- There is a segment for every angle and every tolerance below one. -/
  exists_segment (theta epsilon : ℝ) (h0 : 0 < epsilon) (h1 : epsilon < 1) : ∃ s, Segment.ofRotation theta epsilon = .ok s
  /-- Its points are the points of the disk with an error of at most the tolerance. -/
  inside (theta epsilon : ℝ) (h0 : 0 < epsilon) (s : Segment ℝ) (hs : Segment.ofRotation theta epsilon = .ok s)
    (u : CycloFrac E) (hE : Stores E (2 * load u.exp)) : s.inside u = true ↔ ‖u.value‖ ≤ 1 ∧ rotationError u theta ≤ epsilon
  /-- These are the points of the disk for which an operator that completes a unit column is within the tolerance. -/
  inside_column (theta epsilon : ℝ) (h0 : 0 < epsilon) (s : Segment ℝ) (hs : Segment.ofRotation theta epsilon = .ok s)
    (u t : CycloFrac E) (hlength : (CycloFrac.absSq u + CycloFrac.absSq t).same 1 = true) (op : QubitOp E)
    (hop : op.Completes u t) (hE : QubitOp.StoresColumn u t op) :
    s.inside u = true ↔ ‖u.value‖ ≤ 1 ∧ op.distance theta ≤ epsilon

/-- Without rounding, the closed form for the norm of a matrix is its largest singular value, which is its operator norm, so
that the distance of an operator from a rotation is that of their matrices. The shorter closed form agrees with it for
every operator of determinant one that completes a unit column, and the points of the segment of a rotation are
the points of the disk at a distance of at most `ε`. -/
theorem distances_agree (E : Type) [Exponent E] : DistancesAgree E where
  norm m := ⟨operatorNorm_eq_singularValues m, operatorNorm_eq_norm m⟩
  distance _ := QubitOp.distance_eq_norm_stored
  completes := QubitOp.completes_ofColumn_stored
  column _ _ hlength _ hop hE :=
    ⟨hop.isUnitary hE hlength, hop.det_matrix hE hlength, fun theta => (hop.distance_eq hE hlength theta).symm⟩
  exists_segment _ _ h0 h1 := ⟨_, Segment.ofRotation_real h0 h1⟩
  inside _ _ h0 _ hs _ := Segment.inside_iff_rotationError h0 hs
  inside_column _ _ h0 _ hs _ _ hlength _ hop hE := by
    rw [hop.distance_eq hE hlength]
    exact Segment.inside_iff_rotationError h0 hs (hE.of_le (by omega))

/-- A column with two equal entries. -/
theorem distances_agree_balanced : ∃ s, Segment.ofRotation Real.pi (1 / 2) = .ok s ∧
    rotationError (⟨1, 1⟩ : CycloFrac UInt32) Real.pi = (QubitOp.ofColumn (⟨1, 1⟩ : CycloFrac UInt32) ⟨1, 1⟩).distance Real.pi ∧
    (s.inside (⟨1, 1⟩ : CycloFrac UInt32) = true ↔ ‖(⟨1, 1⟩ : CycloFrac UInt32).value‖ ≤ 1 ∧
      (QubitOp.ofColumn (⟨1, 1⟩ : CycloFrac UInt32) ⟨1, 1⟩).distance Real.pi ≤ 1 / 2) := by
  have hagree := distances_agree UInt32
  have hE : QubitOp.StoresColumn (⟨1, 1⟩ : CycloFrac UInt32) ⟨1, 1⟩ (QubitOp.ofColumn ⟨1, 1⟩ ⟨1, 1⟩) := .of_lt (by decide)
  obtain ⟨s, hs⟩ := hagree.exists_segment Real.pi (1 / 2) (by norm_num) (by norm_num)
  exact ⟨s, hs, (hagree.column _ _ (by decide) _ (hagree.completes _ _) hE).2.2 Real.pi,
    hagree.inside_column Real.pi (1 / 2) (by norm_num) s hs _ _ (by decide) _ (hagree.completes _ _) hE⟩

end CliffordT

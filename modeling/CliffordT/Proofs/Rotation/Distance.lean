import CliffordT.Proofs.Rotation.Entries
import CliffordT.Proofs.Working.Trig
import CliffordT.Rotation.Distance
import Mathlib.Analysis.CStarAlgebra.Matrix
import Mathlib.Analysis.InnerProductSpace.PiL2

/-!
The computed distance from a rotation is not much below the distance.

Half the sum of the squared entries is at most the square of the operator norm, and for the difference of two matrices
of determinant one it is equal to it. The closed form for the norm adds to this half a root that is never
negative, whatever rounding has left of it. So all that can make the computed distance too small is
the error of the entries themselves.
-/

namespace CliffordT

open scoped Matrix Matrix.Norms.L2Operator

/-- The rotation by an angle about the third axis. -/
noncomputable def rotation (theta : ℝ) : Matrix (Fin 2) (Fin 2) ℂ :=
  !![Complex.exp (-(theta / (2 : ℕ) : ℝ) * Complex.I), 0; 0, Complex.exp ((theta / (2 : ℕ) : ℝ) * Complex.I)]

theorem rotation_eq (theta : ℝ) : rotation theta =
    !![⟨Real.cos (theta / 2), -Real.sin (theta / 2)⟩, 0; 0, ⟨Real.cos (theta / 2), Real.sin (theta / 2)⟩] := by
  have hexp : ∀ x : ℝ, Complex.exp (x * Complex.I) = ⟨Real.cos x, Real.sin x⟩ := fun x => by
    rw [Complex.exp_mul_I, ← Complex.ofReal_cos, ← Complex.ofReal_sin]
    exact Complex.mk_eq_add_mul_I _ _ |>.symm
  rw [rotation, Nat.cast_ofNat, hexp, ← Complex.ofReal_neg, hexp, Real.cos_neg, Real.sin_neg]

/-- The distance of a matrix of determinant one from a rotation is the length of its first column less that of the
rotation. -/
theorem norm_sub_rotation_sq (a b : ℂ) (theta : ℝ) :
    ‖!![a, -(starRingEnd ℂ) b; b, (starRingEnd ℂ) a] - rotation theta‖ ^ 2 =
      ‖a - ⟨Real.cos (theta / 2), -Real.sin (theta / 2)⟩‖ ^ 2 + ‖b‖ ^ 2 := by
  obtain ⟨c, hc⟩ : ∃ c, a - ⟨Real.cos (theta / 2), -Real.sin (theta / 2)⟩ = c := ⟨_, rfl⟩
  have hconj : (starRingEnd ℂ) a - ⟨Real.cos (theta / 2), Real.sin (theta / 2)⟩ = (starRingEnd ℂ) c := by
    rw [← hc, map_sub]
    congr 1
    apply Complex.ext <;> simp
  have hdiff : !![a, -(starRingEnd ℂ) b; b, (starRingEnd ℂ) a] - rotation theta =
      !![c, -(starRingEnd ℂ) b; b, (starRingEnd ℂ) c] := by
    rw [rotation_eq, ← hconj, ← hc]
    ext i j
    fin_cases i <;> fin_cases j <;> simp
  have hgram : (!![c, -(starRingEnd ℂ) b; b, (starRingEnd ℂ) c] : Matrix (Fin 2) (Fin 2) ℂ)ᴴ *
      !![c, -(starRingEnd ℂ) b; b, (starRingEnd ℂ) c] = ((‖c‖ ^ 2 + ‖b‖ ^ 2 : ℝ) : ℂ) • 1 := by
    have hcc := Complex.conj_mul' c
    have hbb := Complex.conj_mul' b
    ext i j
    fin_cases i <;> fin_cases j <;> simp [Matrix.mul_apply, Fin.sum_univ_two]
    · linear_combination hcc + hbb
    · ring
    · ring
    · linear_combination hcc + hbb
  rw [hdiff, hc, sq, ← Matrix.l2_opNorm_conjTranspose_mul_self, hgram, norm_smul, norm_one, mul_one, Complex.norm_real,
    Real.norm_of_nonneg (by positivity)]

namespace Approx

variable {p : ℕ}

/-- The complex number with computed parts. -/
noncomputable def toComplex (z : Approx p × Approx p) : ℂ := ⟨z.1.toReal, z.2.toReal⟩

theorem norm_toComplex_sq (z : Approx p × Approx p) : ‖toComplex z‖ ^ 2 = z.1.toReal ^ 2 + z.2.toReal ^ 2 := by
  rw [Complex.sq_norm, Complex.normSq_mk, toComplex]
  ring

theorem sqrt_ge (hp : 1 ≤ p) (x : Approx p) : (1 - ulp p) * √x.toReal ≤ x.sqrt.toReal := by
  have := abs_le.1 (abs_sqrt_sub_le hp x)
  linarith

theorem Near.square (x : Approx p) : Near 1 (x.toReal ^ 2) (Scalar.square x) (x.toReal ^ 2) := by
  have := (Near.exact x).mul (Near.exact x)
  rwa [abs_mul_abs_self, ← sq] at this

/-- The sum of the squares of computed numbers, added up one after the other. -/
theorem foldl_square_near (hp : 1 ≤ p) (l : List (Approx p × Approx p)) {k : ℕ} {s : ℝ} {acc : Approx p}
    (h : Near (k + 1) s acc s) :
    Near (k + 1 + 2 * l.length) (s + (l.map fun z => ‖toComplex z‖ ^ 2).sum)
      (l.foldl (fun acc z => acc + Scalar.square z.1 + Scalar.square z.2) acc)
      (s + (l.map fun z => ‖toComplex z‖ ^ 2).sum) := by
  induction l generalizing k s acc with
  | nil => simpa using h
  | cons z l ih =>
    have hone := h.add hp ((Near.square z.1).mono (by omega) le_rfl)
    have htwo := hone.add hp ((Near.square z.2).mono (by omega) le_rfl)
    rw [add_assoc s, ← norm_toComplex_sq] at htwo
    have := ih htwo
    rw [List.map_cons, List.sum_cons, ← add_assoc, List.length_cons, List.foldl_cons,
      show k + 1 + 2 * (l.length + 1) = k + 1 + 1 + 1 + 2 * l.length by ring]
    exact this

/-- The computed norm is not much below the root of half the squared entries. -/
theorem operatorNorm_ge (hp : 1 ≤ p) (hdrift : drift p 9 ≤ 1) (m : Square (Approx p × Approx p)) :
    (1 - drift p 9) ^ 2 *
      √((‖toComplex m.m₀₀‖ ^ 2 + ‖toComplex m.m₁₀‖ ^ 2 + ‖toComplex m.m₀₁‖ ^ 2 + ‖toComplex m.m₁₁‖ ^ 2) / 2) ≤
      (operatorNorm m).toReal := by
  have hd := drift_nonneg p 9
  have hulp : ulp p ≤ drift p 9 := drift_one p ▸ drift_mono p (by omega)
  have hzero : Near (0 + 1) 0 (0 : Approx p) 0 := by
    have := (Near.exact (0 : Approx p)).mono (k := 0 + 1) (by omega) le_rfl
    rwa [toReal_zero, abs_zero] at this
  have hsum := foldl_square_near hp [m.m₀₀, m.m₁₀, m.m₀₁, m.m₁₁] hzero
  simp only [List.map_cons, List.map_nil, List.sum_cons, List.sum_nil, List.length_cons, List.length_nil, zero_add,
    add_zero, ← add_assoc] at hsum
  rw [operatorNorm]
  obtain ⟨s, hs⟩ : ∃ s, ‖toComplex m.m₀₀‖ ^ 2 + ‖toComplex m.m₁₀‖ ^ 2 + ‖toComplex m.m₀₁‖ ^ 2 +
    ‖toComplex m.m₁₁‖ ^ 2 = s := ⟨_, rfl⟩
  rw [hs] at hsum ⊢
  have hs0 : 0 ≤ s := hsum.nonneg
  generalize List.foldl (fun acc z => acc + Scalar.square z.1 + Scalar.square z.2) (0 : Approx p)
    [m.m₀₀, m.m₁₀, m.m₀₁, m.m₁₁] = f at hsum ⊢
  -- Whatever is under the inner root, the root is not negative and can only make the norm larger.
  generalize hx : Scalar.square f - Scalar.scale _ 4 = x
  have hroot : 0 ≤ (Scalar.sqrt x).toReal :=
    le_trans (mul_nonneg (by linarith) (Real.sqrt_nonneg _)) (sqrt_ge hp x)
  generalize Scalar.sqrt x = root at hroot ⊢
  have hf := (abs_le.1 hsum.error).1
  have hadd := (abs_le.1 (abs_add_sub_le hp f root)).1
  have hf0 : 0 ≤ f.toReal := by
    have := mul_le_mul_of_nonneg_right hdrift hs0
    linarith
  rw [abs_of_nonneg (by linarith)] at hadd
  have hlow : (1 - drift p 9) ^ 2 * s ≤ (f + root).toReal := by
    have h₁ : (1 - drift p 9) * ((1 - drift p 9) * s) ≤ (1 - drift p 9) * f.toReal :=
      mul_le_mul_of_nonneg_left (by linarith) (by linarith)
    have h₂ : (1 - drift p 9) * f.toReal ≤ (1 - ulp p) * (f.toReal + root.toReal) :=
      mul_le_mul (by linarith) (by linarith) hf0 (by linarith)
    linarith
  have hhalf : (Scalar.half (f + root) : Approx p).toReal = (f + root).toReal / 2 := by
    rw [div_eq_mul_inv, ← zpow_neg_one]
    exact toReal_shift _ _
  have hsqrt := sqrt_ge hp (Scalar.half (f + root))
  rw [hhalf] at hsqrt
  refine le_trans ?_ hsqrt
  have hpull : (1 - drift p 9) * √(s / 2) ≤ √((f + root).toReal / 2) := by
    rw [← Real.sqrt_sq (by linarith : 0 ≤ 1 - drift p 9), ← Real.sqrt_mul (sq_nonneg _)]
    exact Real.sqrt_le_sqrt (by linarith)
  calc (1 - drift p 9) ^ 2 * √(s / 2) = (1 - drift p 9) * ((1 - drift p 9) * √(s / 2)) := by ring
    _ ≤ (1 - ulp p) * √((f + root).toReal / 2) :=
      mul_le_mul (by linarith) hpull (mul_nonneg (by linarith) (Real.sqrt_nonneg _)) (by linarith)

end Approx

end CliffordT

import CliffordT.Proofs.Gate.Unbounded
import Mathlib.LinearAlgebra.Matrix.Determinant.Basic
import Mathlib.LinearAlgebra.Matrix.Notation
import Mathlib.LinearAlgebra.Matrix.ZPow

/-!
Operators and words of gates as complex matrices.

An operator keeps its first column and the phase of its determinant. Its matrix has a second column made from the
two, and every gate changes the phase in such a way that the whole matrix is multiplied by the matrix of the gate. So
the operator of a word has the product of the gates for its matrix.
-/

namespace CliffordT

open Matrix

namespace Gate

/-- The matrix of a gate. -/
noncomputable def matrix : Gate → Matrix (Fin 2) (Fin 2) ℂ
  | H => sqrtTwo⁻¹ • !![1, 1; 1, -1]
  | T => !![1, 0; 0, eighthRoot]
  | S => !![1, 0; 0, Complex.I]
  | X => !![0, 1; 1, 0]
  | W => eighthRoot • 1

theorem matrix_T_zpow (j : ℤ) : matrix .T ^ j = !![1, 0; 0, eighthRoot ^ j] := by
  have hunit : IsUnit (matrix .T).det := by simp [matrix, Matrix.det_fin_two]
  have hinv : (matrix .T)⁻¹ = !![1, 0; 0, eighthRoot⁻¹] := by
    refine Matrix.inv_eq_right_inv ?_
    simp [matrix, Matrix.one_fin_two]
  induction j using Int.induction_on with
  | zero => simp [Matrix.one_fin_two]
  | succ n ih =>
    rw [Matrix.zpow_add_one hunit, ih, zpow_add_one₀ eighthRoot_ne_zero]
    simp [matrix]
  | pred n ih =>
    rw [Matrix.zpow_sub_one hunit, ih, hinv, zpow_sub_one₀ eighthRoot_ne_zero]
    simp

theorem matrix_S_eq : matrix .S = matrix .T ^ (2 : ℤ) := by
  rw [matrix_T_zpow, show eighthRoot ^ (2 : ℤ) = Complex.I from eighthRoot_sq]
  rfl

end Gate

namespace GateWord

/-- The product of the matrices of the gates, in written order. -/
noncomputable def matrix (word : GateWord) : Matrix (Fin 2) (Fin 2) ℂ := (word.map Gate.matrix).prod

@[simp] theorem matrix_nil : matrix [] = 1 := rfl

@[simp] theorem matrix_cons (g : Gate) (word : GateWord) : matrix (g :: word) = g.matrix * matrix word := by
  simp [matrix]

theorem matrix_append (word word' : GateWord) : matrix (word ++ word') = matrix word * matrix word' := by
  simp [matrix]

end GateWord

namespace QubitOp

theorem fin_two_congr {a b c d a' b' c' d' : ℂ} (ha : a = a') (hb : b = b') (hc : c = c') (hd : d = d') :
    !![a, b; c, d] = !![a', b'; c', d'] := by
  rw [ha, hb, hc, hd]

theorem smul_fin_two (x a b c d : ℂ) : x • !![a, b; c, d] = !![x * a, x * b; x * c, x * d] := by
  simp

/-- The four entries as complex numbers. -/
noncomputable def matrix {E : Type} [Exponent E] (u : QubitOp E) : Matrix (Fin 2) (Fin 2) ℂ :=
  !![u.entries.m₀₀.value, u.entries.m₀₁.value; u.entries.m₁₀.value, u.entries.m₁₁.value]

theorem matrix_eq {E : Type} [Exponent E] (u : QubitOp E) : u.matrix =
    !![u.z.value, -((starRingEnd ℂ) u.w.value * eighthRoot ^ u.phase.val);
      u.w.value, (starRingEnd ℂ) u.z.value * eighthRoot ^ u.phase.val] := by
  simp [matrix, entries]

theorem eighthRoot_pow_phaseOf (n : ℤ) : eighthRoot ^ (phaseOf n).val = eighthRoot ^ n :=
  eighthRoot_pow_emod n

theorem conj_eighthRoot_zpow (j : ℤ) : (starRingEnd ℂ) (eighthRoot ^ j) = (eighthRoot ^ j)⁻¹ := by
  rw [eq_comm, inv_eq_iff_eq_inv, eq_comm, inv_eq_of_mul_eq_one_left (eighthRoot_zpow_mul_conj j)]

/-- A turn by `T ^ j` takes `ω ^ j` into the phase, which the conjugate of the second entry takes out again. -/
theorem matrix_timesT (u : QubitOp ℕ) (j : ℤ) : (u.timesT j).matrix = Gate.matrix .T ^ j * u.matrix := by
  have hpow : eighthRoot ^ (phaseOf (u.phase.val + j)).val = eighthRoot ^ u.phase.val * eighthRoot ^ j := by
    rw [eighthRoot_pow_phaseOf, zpow_add₀ eighthRoot_ne_zero, zpow_natCast]
  have hcancel : (eighthRoot ^ j)⁻¹ * eighthRoot ^ j = 1 :=
    inv_mul_cancel₀ (zpow_ne_zero j eighthRoot_ne_zero)
  rw [Gate.matrix_T_zpow, matrix_eq, matrix_eq, timesT_z, timesT_w, timesT_phase, hpow, map_mul,
    conj_eighthRoot_zpow, Matrix.mul_fin_two]
  refine fin_two_congr ?_ ?_ ?_ ?_
  · ring
  · linear_combination -((starRingEnd ℂ) u.w.value * eighthRoot ^ u.phase.val) * hcancel
  · ring
  · ring

theorem phase_add_four (u : QubitOp ℕ) :
    eighthRoot ^ (phaseOf (u.phase.val + 4)).val = -eighthRoot ^ u.phase.val := by
  rw [eighthRoot_pow_phaseOf, zpow_add₀ eighthRoot_ne_zero, zpow_natCast,
    show eighthRoot ^ (4 : ℤ) = -1 from eighthRoot_pow_four, mul_neg_one]

theorem matrix_apply (g : Gate) (u : QubitOp ℕ) : (apply g u).matrix = g.matrix * u.matrix := by
  cases g with
  | T => rw [apply_T, matrix_timesT, zpow_one]
  | S => rw [apply_S, matrix_timesT, Gate.matrix_S_eq]
  | H =>
    rw [matrix_eq, matrix_eq, apply_H_z, apply_H_w, apply_H_phase, phase_add_four, Gate.matrix,
      Matrix.smul_mul, Matrix.mul_fin_two, smul_fin_two]
    simp only [map_div₀, map_add, map_sub, conj_sqrtTwo]
    refine fin_two_congr ?_ ?_ ?_ ?_
    all_goals ring
  | X =>
    rw [matrix_eq, matrix_eq, apply_X_z, apply_X_w, apply_X_phase, phase_add_four, Gate.matrix,
      Matrix.mul_fin_two]
    simp
  | W =>
    have hpow : eighthRoot ^ (phaseOf (u.phase.val + 2)).val = eighthRoot ^ u.phase.val * eighthRoot ^ (2 : ℤ) := by
      rw [eighthRoot_pow_phaseOf, zpow_add₀ eighthRoot_ne_zero, zpow_natCast]
    have hconj : (starRingEnd ℂ) eighthRoot * eighthRoot ^ (2 : ℤ) = eighthRoot := by
      have h := eighthRoot_zpow_mul_conj 1
      rw [zpow_one] at h
      rw [show eighthRoot ^ (2 : ℤ) = eighthRoot * eighthRoot from sq eighthRoot]
      linear_combination eighthRoot * h
    rw [matrix_eq, matrix_eq, apply_W_z, apply_W_w, apply_W_phase, hpow, map_mul, map_mul, Gate.matrix,
      Matrix.smul_mul, one_mul, smul_fin_two]
    refine fin_two_congr ?_ ?_ ?_ ?_
    · ring
    · linear_combination -(starRingEnd ℂ) u.w.value * eighthRoot ^ u.phase.val * hconj
    · ring
    · linear_combination (starRingEnd ℂ) u.z.value * eighthRoot ^ u.phase.val * hconj

theorem matrix_identity : (identity : QubitOp ℕ).matrix = 1 := by
  rw [matrix_eq, identity_z, identity_w, identity_phase, Matrix.one_fin_two]
  simp

theorem matrix_act (word : GateWord) (u : QubitOp ℕ) : (act word u).matrix = word.matrix * u.matrix := by
  induction word with
  | nil => simp
  | cons g word ih => rw [act_cons, matrix_apply, ih, GateWord.matrix_cons, mul_assoc]

theorem matrix_ofWord (word : GateWord) : (ofWord word : QubitOp ℕ).matrix = word.matrix := by
  rw [ofWord_eq_act, matrix_act, matrix_identity, mul_one]

theorem det_matrix {u : QubitOp ℕ} (hu : u.isUnitary = true) : u.matrix.det = eighthRoot ^ u.phase.val := by
  rw [isUnitary_iff] at hu
  rw [matrix_eq, Matrix.det_fin_two_of]
  linear_combination eighthRoot ^ u.phase.val * hu

/-! ### Stored exponents -/

variable {E : Type} [Exponent E]

theorem matrix_unbounded (u : QubitOp E) : u.unbounded.matrix = u.matrix := rfl

/-- Matrices with the same phase are equal if their first columns are. -/
theorem matrix_eq_iff {F : Type} [Exponent F] {u : QubitOp E} {v : QubitOp F} (hphase : u.phase = v.phase) :
    u.matrix = v.matrix ↔ u.z.value = v.z.value ∧ u.w.value = v.w.value := by
  constructor
  · intro h
    exact ⟨congrFun (congrFun h 0) 0, congrFun (congrFun h 1) 0⟩
  · rintro ⟨hz, hw⟩
    rw [matrix_eq, matrix_eq, hz, hw, hphase]

/-- The gate `H` multiplies a matrix where the exponents of the new entries can be stored; of the other matrices it multiplies
only zero. -/
theorem matrix_apply_H_iff (u : QubitOp E) : (apply .H u).matrix = Gate.matrix .H * u.matrix ↔
    (u.z.isZero = true ∧ u.w.isZero = true) ∨ Exponent.Stores E (u.depth + 1) := by
  have hz : (apply .H u).z.value = (u.z.value + u.w.value) / sqrtTwo ↔
      u.z.value + u.w.value = 0 ∨ Exponent.Stores E (u.depth + 1) := by
    have h := RootFrac.value_overRoot_eq_iff (u.z + u.w)
    rwa [RootFrac.value_add, RootFrac.exp_add, ← RootFrac.value_reduce (u.z + u.w).overRoot] at h
  have hw : (apply .H u).w.value = (u.z.value - u.w.value) / sqrtTwo ↔
      u.z.value - u.w.value = 0 ∨ Exponent.Stores E (u.depth + 1) := by
    have h := RootFrac.value_overRoot_eq_iff (u.z - u.w)
    rwa [RootFrac.value_sub, RootFrac.exp_sub, ← RootFrac.value_reduce (u.z - u.w).overRoot] at h
  have hzero : u.z.value + u.w.value = 0 ∧ u.z.value - u.w.value = 0 ↔ u.z.value = 0 ∧ u.w.value = 0 := by
    constructor
    · rintro ⟨hsum, hdiff⟩
      exact ⟨by linear_combination hsum / 2 + hdiff / 2, by linear_combination hsum / 2 - hdiff / 2⟩
    · rintro ⟨hz, hw⟩
      simp [hz, hw]
  rw [← matrix_unbounded u, ← matrix_apply, matrix_eq_iff (u := apply .H u) (v := apply .H u.unbounded) rfl,
    apply_H_z, apply_H_w]
  simp only [unbounded, RootFrac.value_unbounded, hz, hw, ← and_or_right, hzero, RootFrac.isZero_iff]

/-- The operator of a word has the product of the matrices of its gates for its matrix. It is unitary, its phase is that of
the determinant, and the operator of a concatenation is the product of the two parts, as long as the exponents that the gates `H`
make can be stored. A gate other than `H`, and any power of `T`, multiplies the matrix of every operator, unitary or not, from
the left. The gate `H` does so exactly where the new exponents can be stored, zero apart. -/
theorem matrix_faithful (E : Type) [Exponent E] :
    (∀ word : GateWord, Exponent.Stores E (2 * word.count .H) →
      (ofWord word : QubitOp E).matrix = word.matrix ∧ (ofWord word : QubitOp E).isUnitary = true ∧
      (ofWord word : QubitOp E).matrix.det = eighthRoot ^ (ofWord word : QubitOp E).phase.val ∧
      ∀ word' : GateWord, Exponent.Stores E (word.count .H + word'.count .H) →
        (ofWord (word ++ word') : QubitOp E).matrix = (ofWord word : QubitOp E).matrix * (ofWord word' : QubitOp E).matrix) ∧
    ∀ u : QubitOp E, (∀ g : Gate, g ≠ .H → (apply g u).matrix = g.matrix * u.matrix) ∧
      ((apply .H u).matrix = Gate.matrix .H * u.matrix ↔
        (u.z.isZero = true ∧ u.w.isZero = true) ∨ Exponent.Stores E (u.depth + 1)) ∧
      ∀ j : ℤ, (u.timesT j).matrix = Gate.matrix .T ^ j * u.matrix := by
  have hmatrix {word : GateWord} (hE : Exponent.Stores E (word.count .H)) : (ofWord word : QubitOp E).matrix = word.matrix := by
    rw [← matrix_unbounded, (unbounded_ofWord word hE).1, matrix_ofWord]
  refine ⟨fun word hE => ⟨?_, ?_, ?_, fun word' hE' => ?_⟩, fun u => ⟨fun g hg => ?_, matrix_apply_H_iff u, fun j => ?_⟩⟩
  · exact hmatrix (hE.of_le (by omega))
  · obtain ⟨hword, hdepth⟩ := unbounded_ofWord (E := E) word (hE.of_le (by omega))
    rw [← isUnitary_unbounded (hE.of_le (by omega)), hword]
    exact isUnitary_ofWord word
  · have h := det_matrix (isUnitary_ofWord word)
    rwa [← (unbounded_ofWord (E := E) word (hE.of_le (by omega))).1, matrix_unbounded] at h
  · have happend : Exponent.Stores E ((word ++ word').count .H) := by rwa [List.count_append]
    rw [hmatrix happend, hmatrix (hE'.of_le (Nat.le_add_right _ _)), hmatrix (hE'.of_le (Nat.le_add_left _ _)),
      GateWord.matrix_append]
  · rw [← matrix_unbounded, unbounded_apply_of_ne hg, matrix_apply, matrix_unbounded]
  · rw [← matrix_unbounded, unbounded_timesT, matrix_timesT, matrix_unbounded]

/-- A product of three gates in words of 32 bits. The largest word is too large an exponent for another `H`. -/
theorem matrix_faithful_three_gates :
    (ofWord [.H, .T, .H] : QubitOp).matrix = GateWord.matrix [.H, .T, .H] ∧
      (apply .H (⟨⟨1, 4294967295⟩, ⟨1, 4294967295⟩, 0⟩ : QubitOp)).matrix ≠
        Gate.matrix .H * (⟨⟨1, 4294967295⟩, ⟨1, 4294967295⟩, 0⟩ : QubitOp).matrix := by
  refine ⟨((matrix_faithful UInt32).1 _ (.of_lt (by decide))).1, ?_⟩
  rw [Ne, ((matrix_faithful UInt32).2 _).2.1, Exponent.stores_word_iff]
  decide

end QubitOp

end CliffordT

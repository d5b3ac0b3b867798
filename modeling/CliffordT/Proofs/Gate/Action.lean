import CliffordT.Proofs.Ring.Value
import CliffordT.Gate.Synthesis

/-!
Gates as maps of complex vectors.

An operator is known by the values of its first column and by its phase. Two operators with equal values
and phases count as equal, and every gate respects that. The relations between gates that exact synthesis
rests on are proved here once: what `H T^-j` does to an operator after a gate, and how a step is undone.
-/

namespace CliffordT

open Synthesis

namespace QubitOp

theorem same_iff (u v : QubitOp ℕ) :
    u.same v = true ↔ u.z.value = v.z.value ∧ u.w.value = v.w.value ∧ u.phase = v.phase := by
  simp [same, RootFrac.same_iff, and_assoc]

/-- Operators are alike if they are the same operator in perhaps different representations. -/
instance setoid : Setoid (QubitOp ℕ) where
  r u v := u.same v = true
  iseqv := by
    constructor
    · intro u
      exact (same_iff u u).2 ⟨rfl, rfl, rfl⟩
    · intro u v h
      obtain ⟨hz, hw, hn⟩ := (same_iff u v).1 h
      exact (same_iff v u).2 ⟨hz.symm, hw.symm, hn.symm⟩
    · intro u v t h h'
      obtain ⟨hz, hw, hn⟩ := (same_iff u v).1 h
      obtain ⟨hz', hw', hn'⟩ := (same_iff v t).1 h'
      exact (same_iff u t).2 ⟨hz.trans hz', hw.trans hw', hn.trans hn'⟩

theorem equiv_iff {u v : QubitOp ℕ} :
    u ≈ v ↔ u.z.value = v.z.value ∧ u.w.value = v.w.value ∧ u.phase = v.phase := same_iff u v

/-! ### Values and phases after one gate -/

theorem phaseOf_congr {m n : ℤ} (h : m % 8 = n % 8) : phaseOf m = phaseOf n := by
  simp [phaseOf, h]

@[simp] theorem phaseOf_val (n : Fin 8) : phaseOf n.val = n := by
  ext
  simp [phaseOf]
  omega

@[simp] theorem phaseOf_phaseOf_add (m n : ℤ) : phaseOf ((phaseOf m).val + n) = phaseOf (m + n) := by
  refine phaseOf_congr ?_
  simp only [phaseOf]
  omega

@[simp] theorem make_z (z w : CycloFrac ℕ) (n : ℤ) : (make z w n).z.value = z.value :=
  RootFrac.value_reduce z

@[simp] theorem make_w (z w : CycloFrac ℕ) (n : ℤ) : (make z w n).w.value = w.value :=
  RootFrac.value_reduce w

@[simp] theorem make_phase (z w : CycloFrac ℕ) (n : ℤ) : (make z w n).phase = phaseOf n := rfl

@[simp] theorem identity_z : (identity : QubitOp ℕ).z.value = 1 := by simp [identity]

@[simp] theorem identity_w : (identity : QubitOp ℕ).w.value = 0 := by simp [identity]

@[simp] theorem identity_phase : (identity : QubitOp ℕ).phase = 0 := rfl

@[simp] theorem timesT_z (u : QubitOp ℕ) (j : ℤ) : (u.timesT j).z.value = u.z.value := by simp [timesT]

@[simp] theorem timesT_w (u : QubitOp ℕ) (j : ℤ) :
    (u.timesT j).w.value = u.w.value * eighthRoot ^ j := by simp [timesT]

@[simp] theorem timesT_phase (u : QubitOp ℕ) (j : ℤ) :
    (u.timesT j).phase = phaseOf (u.phase.val + j) := rfl

@[simp] theorem apply_H_z (u : QubitOp ℕ) :
    (apply .H u).z.value = (u.z.value + u.w.value) / sqrtTwo := by simp [apply]

@[simp] theorem apply_H_w (u : QubitOp ℕ) :
    (apply .H u).w.value = (u.z.value - u.w.value) / sqrtTwo := by simp [apply]

@[simp] theorem apply_H_phase (u : QubitOp ℕ) : (apply .H u).phase = phaseOf (u.phase.val + 4) := rfl

@[simp] theorem apply_T (u : QubitOp ℕ) : apply .T u = u.timesT 1 := rfl

@[simp] theorem apply_S (u : QubitOp ℕ) : apply .S u = u.timesT 2 := rfl

@[simp] theorem apply_X_z (u : QubitOp ℕ) : (apply .X u).z.value = u.w.value := by simp [apply]

@[simp] theorem apply_X_w (u : QubitOp ℕ) : (apply .X u).w.value = u.z.value := by simp [apply]

@[simp] theorem apply_X_phase (u : QubitOp ℕ) : (apply .X u).phase = phaseOf (u.phase.val + 4) := rfl

@[simp] theorem apply_W_z (u : QubitOp ℕ) : (apply .W u).z.value = u.z.value * eighthRoot := by
  simp [apply]

@[simp] theorem apply_W_w (u : QubitOp ℕ) : (apply .W u).w.value = u.w.value * eighthRoot := by
  simp [apply]

@[simp] theorem apply_W_phase (u : QubitOp ℕ) : (apply .W u).phase = phaseOf (u.phase.val + 2) := rfl

@[simp] theorem lower_z (u : QubitOp ℕ) (j : ℕ) :
    (lower u j).z.value = (u.z.value + u.w.value * (eighthRoot ^ j)⁻¹) / sqrtTwo := by
  simp [lower]

@[simp] theorem lower_w (u : QubitOp ℕ) (j : ℕ) :
    (lower u j).w.value = (u.z.value - u.w.value * (eighthRoot ^ j)⁻¹) / sqrtTwo := by
  simp [lower]

@[simp] theorem lower_phase (u : QubitOp ℕ) (j : ℕ) : (lower u j).phase = phaseOf (u.phase.val + (4 - j)) := by
  simp only [lower, apply_H_phase, timesT_phase, phaseOf_phaseOf_add]
  exact phaseOf_congr (by omega)

/-! ### Gates respect likeness -/

theorem timesT_congr {u v : QubitOp ℕ} (h : u ≈ v) (j : ℤ) : u.timesT j ≈ v.timesT j := by
  rw [equiv_iff] at h ⊢
  simp [h]

theorem apply_congr {u v : QubitOp ℕ} (h : u ≈ v) (g : Gate) : apply g u ≈ apply g v := by
  cases g with
  | T => exact timesT_congr h 1
  | S => exact timesT_congr h 2
  | H | X | W =>
    rw [equiv_iff] at h ⊢
    simp [h]

theorem lower_congr {u v : QubitOp ℕ} (h : u ≈ v) (j : ℕ) : lower u j ≈ lower v j :=
  apply_congr (timesT_congr h _) .H

/-- The product of a word of gates with an operator. -/
def act (word : GateWord) (u : QubitOp ℕ) : QubitOp ℕ := word.foldr apply u

@[simp] theorem act_nil (u : QubitOp ℕ) : act [] u = u := rfl

@[simp] theorem act_cons (g : Gate) (word : GateWord) (u : QubitOp ℕ) :
    act (g :: word) u = apply g (act word u) := rfl

theorem act_append (word word' : GateWord) (u : QubitOp ℕ) :
    act (word ++ word') u = act word (act word' u) := List.foldr_append

theorem ofWord_eq_act (word : GateWord) : ofWord word = act word identity := rfl

theorem ofWord_append (word word' : GateWord) : ofWord (word ++ word') = act word (ofWord word') :=
  act_append word word' identity

theorem act_congr {u v : QubitOp ℕ} (h : u ≈ v) (word : GateWord) : act word u ≈ act word v := by
  induction word with
  | nil => exact h
  | cons g word ih => exact apply_congr ih g

/-! ### Relations between gates -/

theorem timesT_zero (u : QubitOp ℕ) : u.timesT 0 ≈ u := by
  rw [equiv_iff]
  simp

theorem timesT_timesT (u : QubitOp ℕ) (i j : ℤ) : (u.timesT i).timesT j ≈ u.timesT (i + j) := by
  rw [equiv_iff]
  refine ⟨by simp, ?_, ?_⟩
  · simp [zpow_add₀, mul_assoc]
  · simp [add_assoc]

theorem apply_H_H (u : QubitOp ℕ) : apply .H (apply .H u) ≈ u := by
  rw [equiv_iff]
  have h := sqrtTwo_sq
  refine ⟨?_, ?_, ?_⟩
  · rw [apply_H_z, apply_H_z, apply_H_w]
    field_simp
    rw [h]
    ring
  · rw [apply_H_w, apply_H_z, apply_H_w]
    field_simp
    rw [h]
    ring
  · simp only [apply_H_phase, phaseOf_phaseOf_add, add_assoc]
    conv_rhs => rw [← phaseOf_val u.phase]
    exact phaseOf_congr (by omega)

theorem act_replicate_S (n : ℕ) (u : QubitOp ℕ) :
    act (List.replicate n .S) u ≈ u.timesT (2 * n) := by
  induction n with
  | zero => exact Setoid.symm (timesT_zero u)
  | succ n ih =>
    refine Setoid.trans (apply_congr ih .S) (Setoid.trans (timesT_timesT u _ _) ?_)
    rw [show 2 * (n : ℤ) + 2 = 2 * ((n + 1 : ℕ) : ℤ) by push_cast; ring]

theorem act_replicate_W (n : ℕ) (u : QubitOp ℕ) :
    (act (List.replicate n .W) u).z.value = u.z.value * eighthRoot ^ n ∧
      (act (List.replicate n .W) u).w.value = u.w.value * eighthRoot ^ n ∧
      (act (List.replicate n .W) u).phase = phaseOf (u.phase.val + 2 * n) := by
  induction n with
  | zero =>
    simp
  | succ n ih =>
    obtain ⟨hz, hw, hn⟩ := ih
    simp only [List.replicate_succ, act_cons, apply_W_z, apply_W_w, apply_W_phase, hz, hw, hn, pow_succ,
      mul_assoc, phaseOf_phaseOf_add, true_and]
    exact phaseOf_congr (by omega)

theorem act_tPower (j : ℕ) (u : QubitOp ℕ) : act (tPower j) u ≈ u.timesT j := by
  rw [tPower, act_append]
  refine Setoid.trans (act_replicate_S _ _) ?_
  obtain h | h : j % 2 = 0 ∨ j % 2 = 1 := by omega
  · have hj : (2 * ((j / 2 : ℕ) : ℤ)) = j := by omega
    rw [h, hj]
    rfl
  · have hj : (1 + 2 * ((j / 2 : ℕ) : ℤ)) = j := by omega
    rw [h]
    have := timesT_timesT u 1 (2 * ((j / 2 : ℕ) : ℤ))
    rwa [hj] at this

/-- A step is undone by its word. -/
theorem act_raise_lower (u : QubitOp ℕ) (j : ℕ) : act (raise j) (lower u j) ≈ u := by
  rw [raise, act_append]
  refine Setoid.trans (act_tPower j _) ?_
  refine Setoid.trans (timesT_congr (apply_H_H _) j) ?_
  have h := timesT_timesT u (-(j : ℤ)) j
  rw [neg_add_cancel] at h
  exact Setoid.trans h (timesT_zero u)

theorem lower_zero (u : QubitOp ℕ) : lower u 0 ≈ apply .H u := apply_congr (timesT_zero u) .H

theorem lower_timesT (u : QubitOp ℕ) (k : ℤ) {i j : ℕ} (h : k - i = -(j : ℤ)) :
    lower (u.timesT k) i ≈ lower u j := by
  have ht := timesT_timesT u k (-(i : ℤ))
  rw [← sub_eq_add_neg, h] at ht
  exact apply_congr ht .H

/-- Four more turns of `T` change the sign of the second row, which `H` makes an exchange of the rows. -/
theorem lower_timesT_four (u : QubitOp ℕ) (k : ℤ) {i j : ℕ} (h : k - i = 4 - (j : ℤ)) :
    lower (u.timesT k) i ≈ apply .X (lower u j) := by
  have ht := lower_timesT (u.timesT 4) (k - 4) (i := i) (j := j) (by omega)
  have h4 : lower (u.timesT 4) j ≈ apply .X (lower u j) := by
    have hω : eighthRoot ^ (4 : ℤ) = -1 := eighthRoot_pow_four
    rw [equiv_iff]
    refine ⟨?_, ?_, ?_⟩
    · rw [lower_z, timesT_z, timesT_w, apply_X_z, lower_w, hω]
      ring
    · rw [lower_w, timesT_z, timesT_w, apply_X_w, lower_z, hω]
      ring
    · simp [add_assoc]
      exact phaseOf_congr (by omega)
  have hk := timesT_timesT u 4 (k - 4)
  rw [add_sub_cancel] at hk
  exact Setoid.trans (lower_congr (Setoid.symm hk) i) (Setoid.trans ht h4)

theorem lower_apply_W (u : QubitOp ℕ) (j : ℕ) : lower (apply .W u) j ≈ apply .W (lower u j) := by
  rw [equiv_iff]
  refine ⟨?_, ?_, ?_⟩
  · simp only [lower_z, apply_W_z, apply_W_w]
    ring
  · simp only [lower_w, apply_W_z, apply_W_w]
    ring
  · simp [add_assoc]
    exact phaseOf_congr (by omega)

theorem eighthRoot_sq_mul_sq : eighthRoot ^ (2 : ℤ) * eighthRoot ^ (2 : ℤ) = -1 := by
  rw [← zpow_add₀ eighthRoot_ne_zero]
  exact eighthRoot_pow_four

theorem lower_zero_apply_X (u : QubitOp ℕ) : lower (apply .X u) 0 ≈ act [.S, .S] (lower u 0) := by
  rw [equiv_iff]
  refine ⟨?_, ?_, ?_⟩
  · simp [add_comm]
  · simp only [lower_w, apply_X_z, apply_X_w, act_cons, act_nil, apply_S, timesT_w, mul_assoc,
      eighthRoot_sq_mul_sq]
    ring
  · simp [add_assoc]

/-- The word by which a step after an exchange of rows differs from the opposite step before it. -/
theorem lower_apply_X (u : QubitOp ℕ) {i j : ℕ} (h : i + j = 4) :
    lower (apply .X u) i ≈ act (List.replicate (j + 4) .W ++ [.S, .S, .X]) (lower u j) := by
  obtain ⟨hz, hw, hn⟩ := act_replicate_W (j + 4) (act [.S, .S, .X] (lower u j))
  have hi : (eighthRoot ^ i)⁻¹ = -eighthRoot ^ j := by
    rw [inv_eq_iff_eq_inv, inv_neg, eq_neg_iff_add_eq_zero, ← mul_left_inj' (pow_ne_zero j eighthRoot_ne_zero),
      add_mul, ← pow_add, h, eighthRoot_pow_four, inv_mul_cancel₀ (pow_ne_zero j eighthRoot_ne_zero)]
    ring
  have hj : (eighthRoot ^ j)⁻¹ * eighthRoot ^ j = 1 := inv_mul_cancel₀ (pow_ne_zero j eighthRoot_ne_zero)
  rw [act_append, equiv_iff, hz, hw, hn]
  refine ⟨?_, ?_, ?_⟩
  · simp only [lower_z, lower_w, apply_X_z, apply_X_w, act_cons, act_nil, apply_S, timesT_z, pow_add,
      eighthRoot_pow_four, hi]
    linear_combination -(u.w.value / sqrtTwo) * hj
  · simp only [lower_z, lower_w, apply_X_z, apply_X_w, act_cons, act_nil, apply_S, timesT_w, pow_add,
      eighthRoot_pow_four, hi, mul_assoc, eighthRoot_sq_mul_sq]
    linear_combination -(u.w.value / sqrtTwo) * hj
  · simp [add_assoc]
    exact phaseOf_congr (by omega)

theorem lower_two_apply_H (u : QubitOp ℕ) :
    lower (apply .H u) 2 ≈ act (List.replicate 7 .W ++ [.S, .X]) (lower u 2) := by
  obtain ⟨hz, hw, hn⟩ := act_replicate_W 7 (act [.S, .X] (lower u 2))
  have hI : (eighthRoot ^ 2)⁻¹ = -Complex.I := by rw [eighthRoot_sq, Complex.inv_I]
  have hI' : eighthRoot ^ (2 : ℤ) = Complex.I := eighthRoot_sq
  have h7 : eighthRoot ^ 7 = (1 - Complex.I) / sqrtTwo := by
    rw [show eighthRoot ^ 7 = eighthRoot ^ 4 * eighthRoot ^ 2 * eighthRoot by ring, eighthRoot_pow_four,
      eighthRoot_sq, eighthRoot]
    field_simp
    linear_combination -Complex.I_sq
  rw [act_append, equiv_iff, hz, hw, hn]
  refine ⟨?_, ?_, ?_⟩
  · simp only [lower_z, lower_w, apply_X_z, apply_H_z, apply_H_w, act_cons, act_nil, apply_S, timesT_z, h7, hI]
    field_simp
    linear_combination u.w.value * Complex.I_sq
  · simp only [lower_z, lower_w, apply_X_w, apply_H_z, apply_H_w, act_cons, act_nil, apply_S, timesT_w, h7, hI,
      hI']
    field_simp
    linear_combination (u.z.value + u.w.value * (1 - Complex.I)) * Complex.I_sq
  · simp [add_assoc]
    exact phaseOf_congr (by omega)

/-! ### Unitary operators -/

theorem isUnitary_iff (u : QubitOp ℕ) : u.isUnitary = true ↔
    u.z.value * (starRingEnd ℂ) u.z.value + u.w.value * (starRingEnd ℂ) u.w.value = 1 := by
  rw [isUnitary, RootFrac.same_iff, RootFrac.value_add, CycloFrac.value_absSq, CycloFrac.value_absSq,
    RootFrac.value_one]

theorem isUnitary_congr {u v : QubitOp ℕ} (h : u ≈ v) (hu : u.isUnitary = true) : v.isUnitary = true := by
  rw [equiv_iff] at h
  rw [isUnitary_iff] at hu ⊢
  rwa [h.1, h.2.1] at hu

theorem eighthRoot_zpow_mul_conj (n : ℤ) : eighthRoot ^ n * (starRingEnd ℂ) (eighthRoot ^ n) = 1 := by
  have h : eighthRoot * (starRingEnd ℂ) eighthRoot = 1 := by
    rw [conj_eighthRoot]
    linear_combination -eighthRoot_pow_four
  rw [map_zpow₀, ← mul_zpow, h, one_zpow]

theorem isUnitary_timesT {u : QubitOp ℕ} (hu : u.isUnitary = true) (j : ℤ) :
    (u.timesT j).isUnitary = true := by
  rw [isUnitary_iff] at hu ⊢
  rw [timesT_z, timesT_w, map_mul]
  linear_combination hu + u.w.value * (starRingEnd ℂ) u.w.value * eighthRoot_zpow_mul_conj j

theorem isUnitary_apply {u : QubitOp ℕ} (hu : u.isUnitary = true) (g : Gate) :
    (apply g u).isUnitary = true := by
  cases g with
  | T => exact isUnitary_timesT hu 1
  | S => exact isUnitary_timesT hu 2
  | H =>
    rw [isUnitary_iff] at hu ⊢
    simp only [apply_H_z, apply_H_w, map_div₀, map_add, map_sub, conj_sqrtTwo]
    field_simp
    rw [sqrtTwo_sq]
    linear_combination 2 * hu
  | X =>
    rw [isUnitary_iff] at hu ⊢
    rw [apply_X_z, apply_X_w, add_comm, hu]
  | W =>
    have h := eighthRoot_zpow_mul_conj 1
    rw [zpow_one] at h
    rw [isUnitary_iff] at hu ⊢
    rw [apply_W_z, apply_W_w, map_mul, map_mul]
    linear_combination eighthRoot * (starRingEnd ℂ) eighthRoot * hu + h

theorem isUnitary_lower {u : QubitOp ℕ} (hu : u.isUnitary = true) (j : ℕ) : (lower u j).isUnitary = true :=
  isUnitary_apply (isUnitary_timesT hu _) .H

theorem isUnitary_identity : (identity : QubitOp ℕ).isUnitary = true := by
  rw [isUnitary_iff]
  simp

theorem isUnitary_act {u : QubitOp ℕ} (hu : u.isUnitary = true) (word : GateWord) :
    (act word u).isUnitary = true := by
  induction word with
  | nil => exact hu
  | cons g word ih => exact isUnitary_apply ih g

theorem isUnitary_ofWord (word : GateWord) : (ofWord word : QubitOp ℕ).isUnitary = true :=
  isUnitary_act isUnitary_identity word

end QubitOp

end CliffordT

import CliffordT.Proofs.Gate.Cost

/-!
The cost of an operator of determinant one that is completed from a column.

After a step that lowers the exponent every further step is an odd one, so the exponent determines the cost up to the
first step and to the phase left at the end. The phase of the operator decides the parity of the cost. What remains is
the first step: completing a column takes the form for which it is even, where that makes a difference.
-/

namespace CliffordT

open Synthesis

namespace QubitOp

theorem exponent_le_two_mul_iff (u : QubitOp ℕ) (m : ℕ) : u.exponent ≤ 2 * m ↔ u.z.reduce.exp ≤ m := by
  rw [exponent_le_iff, cleared_two_mul_iff, ← Exponent.load_nat u.z.reduce.exp, RootFrac.reduce_exp_le_iff]
  rfl

theorem reduce_exp_eq (u : QubitOp ℕ) : u.z.reduce.exp = (u.exponent + 1) / 2 := by
  have h₁ := (exponent_le_two_mul_iff u u.z.reduce.exp).2 le_rfl
  have h₂ := (exponent_le_two_mul_iff u ((u.exponent + 1) / 2)).1 (by omega)
  omega

theorem exponent_of_z {u v : QubitOp ℕ} (h : u.z.value = v.z.value) : u.exponent = v.exponent := by
  refine eq_of_forall_ge_iff fun m => ?_
  rw [exponent_le_iff, exponent_le_iff, h]

theorem exponent_apply_H_le_two_mul_iff (u : QubitOp ℕ) {k : ℕ} (hk : 0 < k) :
    (apply .H u).exponent ≤ 2 * k ↔ (u.z + u.w).reduce.exp < k := by
  obtain ⟨k, rfl⟩ : ∃ n, k = n + 1 := ⟨k - 1, by omega⟩
  rw [exponent_le_two_mul_iff, Nat.lt_succ_iff, ← Exponent.load_nat (apply .H u).z.reduce.exp,
    ← Exponent.load_nat (u.z + u.w).reduce.exp, RootFrac.reduce_exp_le_iff, RootFrac.reduce_exp_le_iff, apply_H_z,
    RootFrac.value_add, pow_succ']
  refine exists_congr fun r => ?_
  rw [← mul_assoc, div_mul_cancel₀ _ sqrtTwo_ne_zero]

/-- After a step that lowers the exponent, `H` alone would raise it again. -/
theorem exponent_lower_lt_apply_H {u : QubitOp ℕ} {j : ℕ} (hlt : (lower u j).exponent < u.exponent) :
    (lower u j).exponent < (apply .H (lower u j)).exponent := by
  rw [show (apply .H (lower u j)).exponent = u.exponent from
    (exponent_congr (apply_H_H _)).trans (exponent_timesT u _)]
  exact hlt

end QubitOp

namespace Cost

open QubitOp

variable {u v : QubitOp ℕ} {t : ℕ}

theorem parity (h : Cost u t) : t % 2 = u.phase.val % 2 := by
  induction h with
  | zero => exact Nat.mod_mod _ 2
  | step _ _ _ ih =>
    simp only [lower_phase, phaseOf] at ih
    omega

/-- The cost of an operator whose steps are all odd. -/
theorem bounds_of_odd (h : Cost v t) (hv : v.isUnitary = true) (hodd : v.exponent < (apply .H v).exponent) :
    v.exponent ≤ t + 1 ∧ t ≤ max v.exponent 1 := by
  induction h with
  | zero h0 => omega
  | @step v j t hj hlt _ ih =>
    have hj' : j % 2 = 1 := by
      have hiff := exponent_apply_H_le_iff hv hj hlt
      omega
    obtain ⟨hlow, hhigh⟩ := ih (isUnitary_lower hv j) (exponent_lower_lt_apply_H hlt)
    have hne := exponent_ne_one hv
    obtain h2 | h3 : v.exponent = 2 ∨ 3 ≤ v.exponent := by omega
    · rw [exponent_lower_of_two hv hlt h2] at hlow hhigh
      omega
    · rw [exponent_lower_of_three_le hv hlt h3] at hlow hhigh
      omega

/-- The exponent and the first step determine the cost up to one. -/
theorem bounds (h : Cost u t) (hu : u.isUnitary = true) {j : ℕ} (hj : j < 4)
    (hlt : (lower u j).exponent < u.exponent) : u.exponent + j % 2 ≤ t + 2 ∧ t + 1 ≤ u.exponent + j % 2 := by
  obtain ⟨s, hs, rfl⟩ := h.exists_rest hu hj hlt
  obtain ⟨hlow, hhigh⟩ := hs.bounds_of_odd (isUnitary_lower hu j) (exponent_lower_lt_apply_H hlt)
  have hne := exponent_ne_one hu
  obtain h2 | h3 : u.exponent = 2 ∨ 3 ≤ u.exponent := by omega
  · rw [exponent_lower_of_two hu hlt h2] at hlow hhigh
    omega
  · rw [exponent_lower_of_three_le hu hlt h3] at hlow hhigh
    omega

/-- The cost of an operator of determinant one, unless its exponent is even and its first step odd. -/
theorem eq_of_phase_zero (h : Cost u t) (hu : u.isUnitary = true) (hphase : u.phase = 0)
    (hfirst : ∀ j < 4, (lower u j).exponent < u.exponent → u.exponent % 2 = 1 ∨ j % 2 = 0) :
    t = 2 * max u.z.reduce.exp 1 - 2 := by
  have hpar := h.parity
  rw [hphase, Fin.val_zero, Nat.zero_mod] at hpar
  rw [reduce_exp_eq]
  obtain h0 | hpos := Nat.eq_zero_or_pos u.exponent
  · have hzero := h.eq_of_exponent_zero h0
    rw [hphase, Fin.val_zero, Nat.zero_mod] at hzero
    omega
  · obtain ⟨j, hj, hlt⟩ := exists_lowering hu hpos
    obtain ⟨hlow, hhigh⟩ := h.bounds hu hj hlt
    have := hfirst j hj hlt
    omega

end Cost

namespace QubitOp

/-- An operator of determinant one with a first column, up to a turn of the second entry by an eighth of a circle. -/
structure Completes {E : Type} [Exponent E] (u : QubitOp E) (z w : CycloFrac E) : Prop where
  z_eq : u.z.value = z.value
  w_eq : u.w.value = w.value ∨ u.w.value = eighthRoot * w.value
  phase_eq : u.phase = 0

theorem completes_ofColumn (z w : CycloFrac ℕ) : (ofColumn z w).Completes z w := by
  rw [ofColumn]
  split
  · exact ⟨by simp, .inl (by simp), rfl⟩
  · exact ⟨by simp, .inr (by simp [mul_comm]), rfl⟩

theorem ofColumn_z (z w : CycloFrac ℕ) : (ofColumn z w).z.value = z.value := (completes_ofColumn z w).z_eq

theorem ofColumn_phase (z w : CycloFrac ℕ) : (ofColumn z w).phase = 0 := (completes_ofColumn z w).phase_eq

/-- A completed column is unitary exactly when the column has length one. -/
theorem Completes.isUnitary_iff {u : QubitOp ℕ} {z w : CycloFrac ℕ} (h : u.Completes z w) :
    u.isUnitary = true ↔ (CycloFrac.absSq z + CycloFrac.absSq w).same 1 = true := by
  have hw : u.w.value * (starRingEnd ℂ) u.w.value = w.value * (starRingEnd ℂ) w.value := by
    obtain hw | hw := h.w_eq
    · rw [hw]
    · have hω := eighthRoot_zpow_mul_conj 1
      rw [zpow_one] at hω
      rw [hw, map_mul]
      linear_combination w.value * (starRingEnd ℂ) w.value * hω
  rw [QubitOp.isUnitary_iff, h.z_eq, hw, RootFrac.same_iff, RootFrac.value_add, CycloFrac.value_absSq,
    CycloFrac.value_absSq, RootFrac.value_one]

theorem isUnitary_ofColumn_iff (z w : CycloFrac ℕ) :
    (ofColumn z w).isUnitary = true ↔ (CycloFrac.absSq z + CycloFrac.absSq w).same 1 = true :=
  (completes_ofColumn z w).isUnitary_iff

theorem isUnitary_make {z w : CycloFrac ℕ} (h : (CycloFrac.absSq z + CycloFrac.absSq w).same 1 = true) (n : ℤ) :
    (make z w n).isUnitary = true := by
  rw [RootFrac.same_iff, RootFrac.value_add, CycloFrac.value_absSq, CycloFrac.value_absSq,
    RootFrac.value_one] at h
  rw [isUnitary_iff, make_z, make_w, h]

/-- The first step of a completed column is even wherever the cost depends on it. -/
theorem ofColumn_first_step {z w : CycloFrac ℕ} (h : (CycloFrac.absSq z + CycloFrac.absSq w).same 1 = true) {j : ℕ}
    (hj : j < 4) (hlt : (lower (ofColumn z w) j).exponent < (ofColumn z w).exponent) :
    (ofColumn z w).exponent % 2 = 1 ∨ j % 2 = 0 := by
  let u := make z.reduce w.reduce 0
  have hu : u.isUnitary = true := by
    refine isUnitary_congr (u := make z w 0) (equiv_iff.2 ⟨?_, ?_, rfl⟩) (isUnitary_make h 0) <;> simp [u]
  have hexp : (ofColumn z w).exponent = u.exponent := exponent_of_z (by simp [u, ofColumn_z])
  have hk : z.reduce.exp = (u.exponent + 1) / 2 := by
    rw [← reduce_exp_eq]
    exact RootFrac.reduce_exp_congr (by simp [u])
  have htest : (z.reduce + w.reduce).reduce.exp = (u.z + u.w).reduce.exp :=
    RootFrac.reduce_exp_congr (by simp [u])
  rw [or_iff_not_imp_left, hexp]
  intro heven
  have hH := exponent_apply_H_le_two_mul_iff u (k := z.reduce.exp) (by omega)
  rw [show 2 * z.reduce.exp = u.exponent by omega, ← htest] at hH
  by_cases hcond : Exponent.load (z.reduce + w.reduce).reduce.exp < Exponent.load z.reduce.exp
  · rw [hexp, ofColumn, if_pos hcond] at hlt
    exact (exponent_apply_H_le_iff hu hj hlt).1 (hH.2 hcond)
  · by_contra hodd
    have hturn : (lower (ofColumn z w) j).exponent = (lower u (j - 1)).exponent := by
      have hcol : (lower (ofColumn z w) j).exponent = (lower (u.timesT 1) j).exponent := by
        rw [ofColumn, if_neg hcond]
        exact exponent_of_z (by simp [u])
      exact hcol.trans (exponent_congr (lower_timesT u 1 (by omega)))
    rw [hturn, hexp] at hlt
    exact hcond (hH.1 ((exponent_apply_H_le_iff hu (by omega) hlt).2 (by omega)))

end QubitOp

namespace Synthesis

open QubitOp

/-- The number of gates `T` in the word of a completed column. -/
theorem tCount_ofColumn {z w : CycloFrac ℕ} (h : (CycloFrac.absSq z + CycloFrac.absSq w).same 1 = true) :
    ∃ word, decompose (ofColumn z w) = .ok word ∧ word.tCount = 2 * max z.reduce.exp 1 - 2 ∧
      ofWord word ≈ ofColumn z w := by
  have hu := (isUnitary_ofColumn_iff z w).2 h
  obtain ⟨word, hok, hcost, hword⟩ := cost_of_decompose hu
  have hexp : (ofColumn z w).z.reduce.exp = z.reduce.exp := RootFrac.reduce_exp_congr (ofColumn_z z w)
  have hcount := hcost.eq_of_phase_zero hu (ofColumn_phase z w) fun j hj => ofColumn_first_step h hj
  rw [hexp] at hcount
  exact ⟨word, hok, hcount, hword⟩

end Synthesis

end CliffordT

import CliffordT.Proofs.Gate.Action
import CliffordT.Proofs.Ring.Denominator

/-!
How one step of exact synthesis changes the denominator exponent.

The exponent of `|z|²` over `√2` is the exponent of `z` over `δ = 1 - ω`. In a unitary operator both entries of the
first column have the same exponent `s`, and `s` is never one. If it is positive, the operators `H T^-j u` for
`j < 4` include exactly one with a smaller exponent: it has exponent zero if `s` is two, and `s - 1` otherwise.
-/

namespace CliffordT

open CycloInt Synthesis

namespace QubitOp

theorem exponent_le_iff (u : QubitOp ℕ) (m : ℕ) : u.exponent ≤ m ↔ Cleared u.z.value m := by
  rw [exponent, RootFrac.reduce_exp_le_iff, cleared_iff_absSq]

theorem exponent_congr {u v : QubitOp ℕ} (h : u ≈ v) : u.exponent = v.exponent := by
  refine eq_of_forall_ge_iff fun m => ?_
  rw [exponent_le_iff, exponent_le_iff, (equiv_iff.1 h).1]

/-- Both entries of the first column of a unitary operator have the same denominators. -/
theorem cleared_w_iff {u : QubitOp ℕ} (hu : u.isUnitary = true) (m : ℕ) :
    Cleared u.w.value m ↔ Cleared u.z.value m := by
  have hroot : NumberRing.value (QuadInt.root ^ m) = sqrtTwo ^ m := by
    rw [QuadInt.value_eq, map_pow, QuadInt.realHom_root, Complex.ofReal_pow, sqrtTwo_eq_ofReal]
  have hsum : (CycloFrac.absSq u.z).value + (CycloFrac.absSq u.w).value = 1 := by
    rw [CycloFrac.value_absSq, CycloFrac.value_absSq]
    exact (isUnitary_iff u).1 hu
  rw [cleared_iff_absSq, cleared_iff_absSq]
  -- what is left of `√2 ^ m` clears the other entry
  refine (Equiv.subLeft (QuadInt.root ^ m)).exists_congr fun r => ?_
  rw [Equiv.subLeft_apply, NumberRing.value_sub, hroot]
  constructor <;> intro hr <;> linear_combination sqrtTwo ^ m * hsum - hr

theorem exponent_timesT (u : QubitOp ℕ) (j : ℤ) : (u.timesT j).exponent = u.exponent := by
  refine eq_of_forall_ge_iff fun m => ?_
  rw [exponent_le_iff, exponent_le_iff, timesT_z]

/-- The gates whose matrices have one entry in each row. -/
def monomialGates : List Gate := [.X, .S, .W]

theorem exponent_apply_monomial {u : QubitOp ℕ} (hu : u.isUnitary = true) {g : Gate}
    (hg : g ∈ monomialGates) : (apply g u).exponent = u.exponent := by
  simp only [monomialGates, List.mem_cons, List.not_mem_nil, or_false] at hg
  rcases hg with rfl | rfl | rfl
  · refine eq_of_forall_ge_iff fun m => ?_
    rw [exponent_le_iff, exponent_le_iff, apply_X_z, cleared_w_iff hu]
  · exact exponent_timesT u 2
  · refine eq_of_forall_ge_iff fun m => ?_
    rw [exponent_le_iff, exponent_le_iff, apply_W_z, ← complexHom_omega]
    refine ⟨fun h => ?_, fun h => h.mul_int omega⟩
    have hback := h.mul_int (omega ^ 7)
    rwa [mul_assoc, ← map_mul, show omega * omega ^ 7 = 1 by decide, map_one, mul_one] at hback

theorem exponent_act_monomial {u : QubitOp ℕ} (hu : u.isUnitary = true) {word : GateWord}
    (hw : ∀ g ∈ word, g ∈ monomialGates) : (act word u).exponent = u.exponent := by
  induction word with
  | nil => rfl
  | cons g word ih =>
    rw [act_cons, exponent_apply_monomial (isUnitary_act hu word) (hw g List.mem_cons_self)]
    exact ih fun h hh => hw h (List.mem_cons_of_mem g hh)

/-! ### Numerators -/

/-- The first column of a unitary operator of exponent `s` is `(x, y) / δ ^ s` for numbers prime to `δ`. -/
structure Numerators (u : QubitOp ℕ) (x y : CycloInt) : Prop where
  z_eq : u.z.value * complexHom delta ^ u.exponent = complexHom x
  w_eq : u.w.value * complexHom delta ^ u.exponent = complexHom y
  not_dvd_x : ¬delta ∣ x
  not_dvd_y : ¬delta ∣ y
  absSq_add : x.absSq + y.absSq = delta.absSq ^ u.exponent

theorem not_dvd_of_not_cleared {v : ℂ} {s : ℕ} {x : CycloInt} (hx : v * complexHom delta ^ (s + 1) = complexHom x)
    (h : ¬Cleared v s) : ¬delta ∣ x := by
  rintro ⟨y, rfl⟩
  refine h ⟨y, mul_right_cancel₀ complexHom_delta_ne_zero ?_⟩
  rw [mul_assoc, ← pow_succ, hx, map_mul, mul_comm]

theorem exists_numerators {u : QubitOp ℕ} (hu : u.isUnitary = true) (hs : 0 < u.exponent) :
    ∃ x y, Numerators u x y := by
  obtain ⟨x, hx⟩ := (exponent_le_iff u _).1 le_rfl
  obtain ⟨y, hy⟩ := (cleared_w_iff hu _).2 ((exponent_le_iff u _).1 le_rfl)
  obtain ⟨s, hs'⟩ : ∃ s, u.exponent = s + 1 := ⟨u.exponent - 1, by omega⟩
  have hnot : ¬Cleared u.z.value s := by
    rw [← exponent_le_iff]
    omega
  refine ⟨x, y, hx, hy, not_dvd_of_not_cleared (hs' ▸ hx) hnot,
    not_dvd_of_not_cleared (hs' ▸ hy) (mt (cleared_w_iff hu s).1 hnot), ?_⟩
  apply NumberRing.value_injective
  rw [NumberRing.value_add, QuadInt.value_eq, QuadInt.value_eq, QuadInt.value_eq, complexHom_absSq,
    complexHom_absSq, map_pow, Complex.ofReal_pow, complexHom_absSq, ← hx, ← hy]
  simp only [map_mul, map_pow]
  linear_combination (complexHom delta * (starRingEnd ℂ) (complexHom delta)) ^ u.exponent *
    (isUnitary_iff u).1 hu

/-- The exponent after a step is read off the divisibility of a sum of numerators. -/
theorem Numerators.exponent_lower_le_iff {u : QubitOp ℕ} {x y : CycloInt} (h : Numerators u x y) (j : ℕ) {m : ℕ}
    (hm : m ≤ u.exponent) :
    (lower u j).exponent ≤ m ↔ ofQuad QuadInt.root * delta ^ (u.exponent - m) ∣ x + y.turnBack j := by
  have hsum : (lower u j).z.value * sqrtTwo * complexHom delta ^ u.exponent =
      complexHom (x + y.turnBack j) := by
    rw [lower_z, div_mul_cancel₀ _ sqrtTwo_ne_zero, map_add, complexHom_turnBack, ← h.z_eq, ← h.w_eq]
    ring
  have hpow : complexHom delta ^ u.exponent =
      complexHom delta ^ m * complexHom delta ^ (u.exponent - m) := by
    rw [← pow_add, Nat.add_sub_cancel' hm]
  rw [exponent_le_iff]
  constructor
  · rintro ⟨r, hr⟩
    refine ⟨r, complexHom_injective ?_⟩
    rw [← hsum, hpow, map_mul, map_mul, map_pow, complexHom_root, ← hr]
    ring
  · rintro ⟨r, hr⟩
    refine ⟨r, ?_⟩
    rw [hr, hpow, map_mul, map_mul, map_pow, complexHom_root] at hsum
    have hne : sqrtTwo * complexHom delta ^ (u.exponent - m) ≠ 0 :=
      mul_ne_zero sqrtTwo_ne_zero (pow_ne_zero _ complexHom_delta_ne_zero)
    refine mul_right_cancel₀ hne ?_
    linear_combination hsum

/-! ### One step -/

theorem exponent_ne_one {u : QubitOp ℕ} (hu : u.isUnitary = true) : u.exponent ≠ 1 := by
  intro h
  obtain ⟨x, y, hxy⟩ := exists_numerators hu (by omega)
  have hb := (absSq_add_even hxy.not_dvd_x hxy.not_dvd_y).2
  rw [hxy.absSq_add, h, pow_one, absSq_delta] at hb
  revert hb
  decide

/-- Among four steps one lowers a positive exponent. -/
theorem exists_lowering {u : QubitOp ℕ} (hu : u.isUnitary = true) (hs : 0 < u.exponent) :
    ∃ j < 4, (lower u j).exponent < u.exponent := by
  obtain ⟨x, y, hxy⟩ := exists_numerators hu hs
  obtain ⟨j, hj, hdvd⟩ := exists_turn hxy.not_dvd_x hxy.not_dvd_y
  refine ⟨j, hj, ?_⟩
  have hle := (hxy.exponent_lower_le_iff j (Nat.sub_le u.exponent 1)).2
    (by rwa [Nat.sub_sub_self hs, pow_one])
  omega

theorem Numerators.dvd_of_lowering {u : QubitOp ℕ} {x y : CycloInt} (h : Numerators u x y) {j : ℕ}
    (hlt : (lower u j).exponent < u.exponent) : ofQuad QuadInt.root * delta ∣ x + y.turnBack j := by
  have hdvd := (h.exponent_lower_le_iff j (Nat.sub_le u.exponent 1)).1 (by omega)
  rwa [Nat.sub_sub_self (by omega), pow_one] at hdvd

/-- It is the only one of the four. -/
theorem lowering_unique {u : QubitOp ℕ} (hu : u.isUnitary = true) {i j : ℕ} (hi : i < 4) (hj : j < 4)
    (hui : (lower u i).exponent < u.exponent) (huj : (lower u j).exponent < u.exponent) : i = j := by
  obtain ⟨x, y, hxy⟩ := exists_numerators hu (by omega)
  exact turn_unique hxy.not_dvd_y hi hj (hxy.dvd_of_lowering hui) (hxy.dvd_of_lowering huj)

theorem absSq_delta_pow (n : ℕ) :
    (delta.absSq ^ (n + 3)).a % 4 = 0 ∧ (delta.absSq ^ (n + 3)).b % 2 = 0 := by
  induction n with
  | zero => decide
  | succ n ih =>
    rw [show n + 1 + 3 = n + 3 + 1 by ring, pow_succ, absSq_delta, QuadInt.mul_a, QuadInt.mul_b]
    rw [absSq_delta] at ih
    dsimp only
    omega

/-- A step that lowers the exponent two lowers it to zero. -/
theorem exponent_lower_of_two {u : QubitOp ℕ} (hu : u.isUnitary = true) {j : ℕ}
    (hlt : (lower u j).exponent < u.exponent) (hs : u.exponent = 2) : (lower u j).exponent = 0 := by
  have := exponent_ne_one (isUnitary_lower hu j)
  omega

/-- A step that lowers a larger exponent lowers it by one. -/
theorem exponent_lower_of_three_le {u : QubitOp ℕ} (hu : u.isUnitary = true) {j : ℕ}
    (hlt : (lower u j).exponent < u.exponent) (hs : 3 ≤ u.exponent) :
    (lower u j).exponent = u.exponent - 1 := by
  obtain ⟨x, y, hxy⟩ := exists_numerators hu (by omega)
  by_contra hne
  have hdvd := (hxy.exponent_lower_le_iff j (Nat.sub_le u.exponent 2)).1 (by omega)
  rw [Nat.sub_sub_self (by omega),
    root_mul_delta_sq_dvd_add_iff hxy.not_dvd_x (hxy.dvd_of_lowering hlt), absSq_turnBack, hxy.absSq_add] at hdvd
  have hpow := (absSq_delta_pow (u.exponent - 3)).1
  rw [Nat.sub_add_cancel hs, hdvd] at hpow
  revert hpow
  decide

/-- No step lowers the exponent by more than one, but for the last that goes from two to zero. -/
theorem exponent_sub_one_le {u : QubitOp ℕ} (hu : u.isUnitary = true) (j : ℕ) :
    u.exponent - 1 ≤ (lower u j).exponent - 1 + 1 := by
  by_cases hlt : (lower u j).exponent < u.exponent
  · have h1 := exponent_ne_one hu
    by_cases h3 : 3 ≤ u.exponent
    · have := exponent_lower_of_three_le hu hlt h3
      omega
    · omega
  · omega

/-- The step that lowers the exponent is an even one exactly when `H` alone does not raise it. -/
theorem exponent_apply_H_le_iff {u : QubitOp ℕ} (hu : u.isUnitary = true) {j : ℕ} (hj : j < 4)
    (hlt : (lower u j).exponent < u.exponent) : (apply .H u).exponent ≤ u.exponent ↔ j % 2 = 0 := by
  obtain ⟨x, y, hxy⟩ := exists_numerators hu (by omega)
  rw [← exponent_congr (lower_zero u), hxy.exponent_lower_le_iff 0 le_rfl, Nat.sub_self, pow_zero, mul_one,
    turnBack_zero]
  exact root_dvd_add_iff hxy.not_dvd_y hj (hxy.dvd_of_lowering hlt)

end QubitOp

end CliffordT

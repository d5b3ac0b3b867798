import CliffordT.Proofs.Ring.Parity

/-!
Denominators of complex numbers, as powers of `√2` and of the prime `δ = 1 - ω`.

A power of `δ` clears the denominator of a number exactly when the same power of `√2` clears that of its squared
absolute value. In particular a number of `𝔻[ω]` whose squared absolute value lies in `ℤ[√2]` lies in `ℤ[ω]`.
-/

namespace CliffordT

open CycloInt

/-- Whether `δ ^ m` clears the denominator of a complex number. -/
def Cleared (v : ℂ) (m : ℕ) : Prop := ∃ x : CycloInt, v * complexHom delta ^ m = complexHom x

theorem complexHom_delta_ne_zero : complexHom delta ≠ 0 :=
  (map_ne_zero_iff _ complexHom_injective).2 delta_ne_zero

theorem Cleared.mul_int {v : ℂ} {m : ℕ} (h : Cleared v m) (y : CycloInt) :
    Cleared (v * complexHom y) m := by
  obtain ⟨x, hx⟩ := h
  exact ⟨x * y, by rw [map_mul, ← hx]; ring⟩

/-- An even power of `δ` clears what the half power of `√2` clears. -/
theorem cleared_two_mul_iff (v : ℂ) (m : ℕ) :
    Cleared v (2 * m) ↔ ∃ x : CycloInt, v * sqrtTwo ^ m = complexHom x := by
  rw [← complexHom_root]
  constructor
  · rintro ⟨x, hx⟩
    refine ⟨x * ⟨-1, 0, 1, 1⟩ ^ m, ?_⟩
    rw [root_eq, map_mul, map_mul, map_pow, map_pow, ← hx, mul_pow, ← pow_mul, mul_assoc]
  · rintro ⟨x, hx⟩
    refine ⟨x * ⟨-1, 1, -1, 0⟩ ^ m, ?_⟩
    rw [pow_mul, ← map_pow, delta_sq, map_mul, map_mul, map_pow, ← hx, mul_pow, mul_assoc]

theorem absSq_delta_eq : delta.absSq = QuadInt.root * QuadInt.lambdaInv := by decide

/-- Powers of `δ` clear a number as soon as the same powers of `√2` clear its squared absolute value. -/
theorem cleared_iff_absSq (v : CycloFrac ℕ) (m : ℕ) :
    Cleared v.value m ↔ ∃ r : QuadInt, (CycloFrac.absSq v).value * sqrtTwo ^ m = NumberRing.value r := by
  constructor
  · rintro ⟨x, hx⟩
    -- `|δ|²` is `√2` up to the unit `λ⁻¹`, which is made up for by the same power of `λ`
    refine ⟨x.absSq * QuadInt.lambda ^ m, ?_⟩
    have hunit : (QuadInt.lambdaInv * QuadInt.lambda) ^ m = 1 := by
      rw [show QuadInt.lambdaInv * QuadInt.lambda = 1 by decide, one_pow]
    have hlam : (QuadInt.realHom QuadInt.lambdaInv : ℂ) ^ m * (QuadInt.realHom QuadInt.lambda : ℂ) ^ m = 1 := by
      rw [← mul_pow, ← Complex.ofReal_mul, ← map_mul, ← Complex.ofReal_pow, ← map_pow, hunit, map_one,
        Complex.ofReal_one]
    have hdelta : complexHom delta * (starRingEnd ℂ) (complexHom delta) =
        sqrtTwo * (QuadInt.realHom QuadInt.lambdaInv : ℂ) := by
      rw [← complexHom_absSq, absSq_delta_eq, map_mul, QuadInt.realHom_root, Complex.ofReal_mul, sqrtTwo_eq_ofReal]
    rw [QuadInt.value_eq, map_mul, Complex.ofReal_mul, complexHom_absSq, map_pow, Complex.ofReal_pow, ← hx,
      map_mul, map_pow, CycloFrac.value_absSq]
    calc v.value * (starRingEnd ℂ) v.value * sqrtTwo ^ m
        = v.value * (starRingEnd ℂ) v.value * sqrtTwo ^ m *
          ((QuadInt.realHom QuadInt.lambdaInv : ℂ) ^ m * (QuadInt.realHom QuadInt.lambda : ℂ) ^ m) := by
            rw [hlam, mul_one]
      _ = v.value * (starRingEnd ℂ) v.value * (sqrtTwo * (QuadInt.realHom QuadInt.lambdaInv : ℂ)) ^ m *
          (QuadInt.realHom QuadInt.lambda : ℂ) ^ m := by ring
      _ = _ := by rw [← hdelta]; ring
  · rintro ⟨r, hr⟩
    have hnum : v.num.absSq * QuadInt.root ^ m = r * 2 ^ v.exp := by
      apply NumberRing.value_injective
      have hroot : (NumberRing.value QuadInt.root : ℂ) = sqrtTwo := by
        rw [QuadInt.value_eq, QuadInt.realHom_root, sqrtTwo_eq_ofReal]
      have htwo : (2 : QuadInt) ^ v.exp = QuadInt.root ^ (2 * v.exp) := by
        rw [pow_mul, QuadInt.root_sq]
      have hpow (n : ℕ) : NumberRing.value (QuadInt.root ^ n) = sqrtTwo ^ n := by
        rw [← hroot, QuadInt.value_eq, QuadInt.value_eq, map_pow, Complex.ofReal_pow]
      rw [htwo, QuadInt.value_eq, map_mul, Complex.ofReal_mul, ← QuadInt.value_eq, ← QuadInt.value_eq, hpow,
        QuadInt.value_eq (_ * _), map_mul, Complex.ofReal_mul, ← QuadInt.value_eq, ← QuadInt.value_eq, hpow, ← hr,
        CycloFrac.absSq, RootFrac.value_mk, Exponent.load_store, Exponent.load_nat, div_mul_eq_mul_div, div_mul_cancel₀ _ (by simp)]
    have hdvd : (2 : QuadInt) ^ v.exp ∣ (v.num * delta ^ m).absSq := by
      rw [absSq_mul, absSq_pow, absSq_delta_eq, mul_pow, ← mul_assoc, hnum]
      exact (dvd_mul_left _ _).mul_right _
    obtain ⟨y, hy⟩ := root_pow_dvd_of_absSq hdvd
    refine ⟨y, ?_⟩
    rw [RootFrac.value, Exponent.load_nat, div_mul_eq_mul_div, div_eq_iff (by simp), value_eq, ← map_pow, ← map_mul, hy, map_mul,
      map_pow, complexHom_root, mul_comm]

/-- The least number of factors `√2` that clear the denominator of a fraction. -/
def LeastExponent {E : Type} [Exponent E] (z : CycloFrac E) (k : ℕ) : Prop :=
  IsLeast {m | ∃ x : CycloInt, z.value = (⟨x, m⟩ : CycloFrac ℕ).value} k

theorem leastExponent_iff {E : Type} [Exponent E] (z : CycloFrac E) (k : ℕ) :
    LeastExponent z k ↔ Exponent.load z.reduce.exp = k := by
  have hset : {m | ∃ x : CycloInt, z.value = (⟨x, m⟩ : CycloFrac ℕ).value} = Set.Ici (Exponent.load z.reduce.exp) := by
    ext m
    rw [Set.mem_ofPred_eq, Set.mem_Ici, RootFrac.reduce_exp_le_iff]
    exact exists_congr fun x => eq_div_iff (pow_ne_zero m sqrtTwo_ne_zero)
  rw [LeastExponent, hset]
  constructor
  · intro h
    exact h.unique isLeast_Ici |>.symm
  · rintro rfl
    exact isLeast_Ici

end CliffordT

import CliffordT.Proofs.Ring.Cyclo
import CliffordT.Ring.CycloFrac

/-!
Ring elements and fractions as complex numbers.

A fraction has one value and many representations. Two fractions are the same exactly when their values are
equal, reducing keeps the value, and the exponent after reducing is the least one: `√2 ^ m` times
the value lies in the ring exactly when `m` is at least that exponent.
-/

namespace CliffordT

/-- The complex number `√2`. -/
noncomputable def sqrtTwo : ℂ := (QuadInt.realHom QuadInt.root : ℝ)

theorem sqrtTwo_eq_ofReal : sqrtTwo = (√2 : ℝ) := by
  rw [sqrtTwo, QuadInt.realHom_root]

@[simp] theorem sqrtTwo_ne_zero : sqrtTwo ≠ 0 := by
  rw [sqrtTwo_eq_ofReal, Complex.ofReal_ne_zero]
  positivity

theorem sqrtTwo_sq : sqrtTwo ^ 2 = 2 := by
  rw [sqrtTwo_eq_ofReal, ← Complex.ofReal_pow, Real.sq_sqrt (by norm_num)]
  norm_num

/-- The powers of `√2` are different numbers. -/
theorem sqrtTwo_pow_injective : Function.Injective fun n : ℕ => sqrtTwo ^ n := by
  intro m n h
  have hreal : (√2 : ℝ) ^ m = √2 ^ n := by
    simp only [sqrtTwo_eq_ofReal] at h
    exact_mod_cast h
  exact pow_right_injective₀ (by positivity) (by simp) hreal

@[simp] theorem conj_sqrtTwo : (starRingEnd ℂ) sqrtTwo = sqrtTwo := Complex.conj_ofReal _

/-- A ring of complex numbers that contains `√2`: every element has a value, the operations are those of the
values, and division by `√2` succeeds where the quotient lies in the ring. -/
class NumberRing (R : Type) [RootTwoRing R] where
  /-- The value of an element. -/
  value : R → ℂ
  value_injective : Function.Injective value
  value_zero : value 0 = 0
  value_one : value 1 = 1
  value_add (x y : R) : value (x + y) = value x + value y
  value_sub (x y : R) : value (x - y) = value x - value y
  value_neg (x : R) : value (-x) = -value x
  value_mul (x y : R) : value (x * y) = value x * value y
  value_timesRoot (x : R) : value (RootTwoRing.timesRoot x) = value x * sqrtTwo
  overRoot?_eq_some_iff (x y : R) :
    RootTwoRing.overRoot? x = some y ↔ RootTwoRing.timesRoot y = x

namespace RootFrac

open Exponent NumberRing

variable {R E : Type} [RootTwoRing R] [NumberRing R] [Exponent E]

/-- The number that a fraction stands for. -/
noncomputable def value (x : RootFrac R E) : ℂ := NumberRing.value x.num / sqrtTwo ^ load x.exp

theorem value_mk (r : R) (k : E) : (⟨r, k⟩ : RootFrac R E).value = NumberRing.value r / sqrtTwo ^ load k := rfl

@[simp] theorem value_ofRing (r : R) : (ofRing r : RootFrac R E).value = NumberRing.value r := by
  simp [ofRing, value]

omit [RootTwoRing R] [NumberRing R] in
@[simp] theorem exp_ofRing (r : R) : load (ofRing r : RootFrac R E).exp = 0 := load_zero

@[simp] theorem value_zero : (0 : RootFrac R E).value = 0 := by
  change (ofRing (0 : R) : RootFrac R E).value = 0
  rw [value_ofRing, NumberRing.value_zero]

@[simp] theorem value_one : (1 : RootFrac R E).value = 1 := by
  change (ofRing (1 : R) : RootFrac R E).value = 1
  rw [value_ofRing, NumberRing.value_one]

theorem value_repeat_timesRoot (r : R) (n : ℕ) :
    NumberRing.value (Nat.repeat RootTwoRing.timesRoot n r) = NumberRing.value r * sqrtTwo ^ n := by
  induction n with
  | zero => simp [Nat.repeat]
  | succ n ih => rw [Nat.repeat, value_timesRoot, ih, pow_succ, mul_assoc]

theorem value_numOver (x : RootFrac R E) {k : ℕ} (h : load x.exp ≤ k) :
    NumberRing.value (x.numOver k) / sqrtTwo ^ k = x.value := by
  rw [numOver, value_repeat_timesRoot, value, div_eq_div_iff (by simp) (by simp), mul_assoc, ← pow_add,
    Nat.sub_add_cancel h]

omit [NumberRing R] in
@[simp] theorem exp_add (x y : RootFrac R E) : load (x + y).exp = max (load x.exp) (load y.exp) :=
  load_store

omit [NumberRing R] in
@[simp] theorem exp_sub (x y : RootFrac R E) : load (x - y).exp = max (load x.exp) (load y.exp) :=
  load_store

@[simp] theorem value_add (x y : RootFrac R E) : (x + y).value = x.value + y.value := by
  rw [← value_numOver x (le_max_left (load x.exp) (load y.exp)),
    ← value_numOver y (le_max_right (load x.exp) (load y.exp)), ← add_div, ← NumberRing.value_add, value, exp_add]
  rfl

@[simp] theorem value_sub (x y : RootFrac R E) : (x - y).value = x.value - y.value := by
  rw [← value_numOver x (le_max_left (load x.exp) (load y.exp)),
    ← value_numOver y (le_max_right (load x.exp) (load y.exp)), ← sub_div, ← NumberRing.value_sub, value, exp_sub]
  rfl

@[simp] theorem value_neg (x : RootFrac R E) : (-x).value = -x.value := by
  change NumberRing.value (-x.num) / sqrtTwo ^ load x.exp = _
  rw [NumberRing.value_neg, neg_div, value]

/-- The value of a product, if the sum of the exponents can be stored. -/
@[simp] theorem value_mul (x y : RootFrac R E) [Stores E (load x.exp + load y.exp)] :
    (x * y).value = x.value * y.value := by
  change NumberRing.value (x.num * y.num) / sqrtTwo ^ load (store (load x.exp + load y.exp) : E) = _
  rw [load_store, NumberRing.value_mul, pow_add, mul_div_mul_comm, value, value]

@[simp] theorem value_overRoot (x : RootFrac R E) [Stores E (load x.exp + 1)] : x.overRoot.value = x.value / sqrtTwo := by
  rw [overRoot, value_mk, load_next, pow_succ, ← div_div, value]

/-- A quotient by `√2` is right exactly where its exponent can be stored, zero apart. -/
theorem value_overRoot_eq_iff (x : RootFrac R E) :
    x.overRoot.value = x.value / sqrtTwo ↔ x.value = 0 ∨ Stores E (load x.exp + 1) := by
  have hpow : sqrtTwo ^ (load x.exp + 1) = sqrtTwo ^ load (next x.exp) ↔ Stores E (load x.exp + 1) := by
    rw [sqrtTwo_pow_injective.eq_iff]
    exact ⟨fun h => ⟨h.symm⟩, fun h => h.load_store.symm⟩
  rw [overRoot, value_mk, ← hpow, value, div_div, ← pow_succ, div_eq_div_iff (by simp) (by simp), mul_eq_mul_left_iff,
    div_eq_zero_iff, or_iff_left (pow_ne_zero _ sqrtTwo_ne_zero), or_comm]

theorem value_divideOut (r : R) (k : ℕ) (hk : Stores E k) :
    (divideOut r k : RootFrac R E).value = NumberRing.value r / sqrtTwo ^ k := by
  induction k generalizing r with
  | zero => rw [divideOut, value_mk, load_zero]
  | succ k ih =>
    rw [divideOut]
    split
    · next s hs =>
      rw [overRoot?_eq_some_iff] at hs
      rw [ih _ (hk.of_le (Nat.le_succ k)), ← hs, value_timesRoot, pow_succ, mul_div_mul_right _ _ sqrtTwo_ne_zero]
    · rw [value_mk, load_store]

omit [NumberRing R] in
/-- After dividing out, the exponent is zero or the numerator cannot be divided again. -/
theorem divideOut_exp (r : R) (k : ℕ) :
    load (divideOut r k : RootFrac R E).exp = 0 ∨
      RootTwoRing.overRoot? (divideOut r k : RootFrac R E).num = none := by
  induction k generalizing r with
  | zero => exact .inl load_zero
  | succ k ih =>
    rw [divideOut]
    split
    · exact ih _
    · next h => exact .inr h

variable [DecidableEq R]

theorem isZero_iff (x : RootFrac R E) : x.isZero = true ↔ x.value = 0 := by
  rw [isZero, decide_eq_true_eq, value, div_eq_zero_iff, or_iff_left (by simp), ← value_injective.eq_iff,
    NumberRing.value_zero]

theorem same_iff (x y : RootFrac R E) : x.same y = true ↔ x.value = y.value := by
  rw [same, isZero_iff, value_sub, sub_eq_zero]

@[simp] theorem value_reduce (x : RootFrac R E) : x.reduce.value = x.value := by
  rw [reduce]
  split
  · next h => rw [value_zero, value, h, NumberRing.value_zero, zero_div]
  · rw [value_divideOut _ _ inferInstance, value]

omit [NumberRing R] in
theorem reduce_exp (x : RootFrac R E) :
    load x.reduce.exp = 0 ∨ RootTwoRing.overRoot? x.reduce.num = none := by
  rw [reduce]
  split
  · exact .inl load_zero
  · exact divideOut_exp _ _

/-- The exponent after reducing is the least one that clears the denominator. -/
theorem reduce_exp_le_iff (x : RootFrac R E) (m : ℕ) :
    load x.reduce.exp ≤ m ↔ ∃ r : R, x.value * sqrtTwo ^ m = NumberRing.value r := by
  have hval : x.value = NumberRing.value x.reduce.num / sqrtTwo ^ load x.reduce.exp := (value_reduce x).symm
  constructor
  · intro h
    refine ⟨Nat.repeat RootTwoRing.timesRoot (m - load x.reduce.exp) x.reduce.num, ?_⟩
    rw [value_repeat_timesRoot, hval, div_mul_eq_mul_div, div_eq_iff (by simp), mul_assoc, ← pow_add,
      Nat.sub_add_cancel h]
  · rintro ⟨r, hr⟩
    by_contra hlt
    obtain ⟨d, hd⟩ : ∃ d, load x.reduce.exp = m + d + 1 := ⟨load x.reduce.exp - m - 1, by omega⟩
    have hnum : RootTwoRing.timesRoot (Nat.repeat RootTwoRing.timesRoot d r) = x.reduce.num := by
      apply value_injective
      rw [value_timesRoot, value_repeat_timesRoot, ← hr, hval, hd, div_mul_eq_mul_div, div_mul_eq_mul_div,
        div_mul_eq_mul_div, div_eq_iff (by simp)]
      ring
    rw [← overRoot?_eq_some_iff] at hnum
    rcases reduce_exp x with h | h
    · omega
    · rw [h] at hnum
      cases hnum

theorem load_reduce_le (x : RootFrac R E) : load x.reduce.exp ≤ load x.exp :=
  (reduce_exp_le_iff x _).2 ⟨x.num, div_mul_cancel₀ _ (by simp)⟩

theorem reduce_exp_congr {x y : RootFrac R E} (h : x.value = y.value) : x.reduce.exp = y.reduce.exp := by
  refine load_injective (le_antisymm ?_ ?_)
  · rw [reduce_exp_le_iff, h, ← reduce_exp_le_iff]
  · rw [reduce_exp_le_iff, ← h, ← reduce_exp_le_iff]

end RootFrac

/-! ### The ring `ℤ[√2]` -/

noncomputable instance : NumberRing QuadInt where
  value x := (QuadInt.realHom x : ℂ)
  value_injective x y h := QuadInt.realHom_injective (Complex.ofReal_injective h)
  value_zero := by rw [map_zero, Complex.ofReal_zero]
  value_one := by rw [map_one, Complex.ofReal_one]
  value_add x y := by rw [map_add, Complex.ofReal_add]
  value_sub x y := by rw [map_sub, Complex.ofReal_sub]
  value_neg x := by rw [map_neg, Complex.ofReal_neg]
  value_mul x y := by rw [map_mul, Complex.ofReal_mul]
  value_timesRoot x := by
    change ((QuadInt.realHom x.timesRoot : ℝ) : ℂ) = _
    rw [QuadInt.timesRoot_eq, map_mul, QuadInt.realHom_root, Complex.ofReal_mul, sqrtTwo_eq_ofReal]
  overRoot?_eq_some_iff x y := by
    change x.overRoot? = some y ↔ y.timesRoot = x
    rw [QuadInt.overRoot?_eq_some_iff, QuadInt.timesRoot_eq]

theorem QuadInt.value_eq (x : QuadInt) : NumberRing.value x = (QuadInt.realHom x : ℂ) := rfl

namespace QuadFrac

open Exponent

variable {E : Type} [Exponent E]

/-- The real number that a fraction stands for. -/
noncomputable def toReal (x : QuadFrac E) : ℝ := QuadInt.realHom x.num / QuadInt.realHom QuadInt.root ^ load x.exp

theorem toReal_eq (x : QuadFrac E) : toReal x = QuadInt.realHom x.num / √2 ^ load x.exp := by rw [toReal, QuadInt.realHom_root]

/-- The even part of a denominator is a power of two. -/
theorem two_zpow_eq_sqrt_pow (k : ℕ) : (2 : ℝ) ^ (-(k : ℤ)) = (√2 ^ (2 * k))⁻¹ := by
  rw [pow_mul, Real.sq_sqrt (by norm_num), zpow_neg, zpow_natCast]

theorem value_eq_toReal (x : QuadFrac E) : x.value = (toReal x : ℂ) := by
  rw [RootFrac.value, QuadInt.value_eq, sqrtTwo_eq_ofReal, toReal_eq]
  push_cast
  rfl

end QuadFrac

/-! ### The ring `ℤ[ω]` -/

/-- The complex number `ω = e^{iπ/4}`. -/
noncomputable def eighthRoot : ℂ := (1 + Complex.I) / sqrtTwo

theorem eighthRoot_sq : eighthRoot ^ 2 = Complex.I := by
  rw [eighthRoot, div_pow, sqrtTwo_sq, div_eq_iff (by norm_num)]
  linear_combination Complex.I_sq

theorem eighthRoot_pow_four : eighthRoot ^ 4 = -1 := by
  rw [show 4 = 2 * 2 from rfl, pow_mul, eighthRoot_sq, Complex.I_sq]

@[simp] theorem eighthRoot_ne_zero : eighthRoot ≠ 0 := by
  intro h
  have := eighthRoot_pow_four
  simp [h] at this

theorem eighthRoot_pow_emod (n : ℤ) : eighthRoot ^ (n % 8).toNat = eighthRoot ^ n := by
  have h8 : eighthRoot ^ (8 : ℤ) = 1 := by
    rw [show (8 : ℤ) = ((4 * 2 : ℕ) : ℤ) from rfl, zpow_natCast, pow_mul, eighthRoot_pow_four]
    norm_num
  rw [← zpow_natCast, Int.toNat_of_nonneg (Int.emod_nonneg n (by norm_num))]
  conv_rhs => rw [← Int.emod_add_mul_ediv n 8, zpow_add₀ eighthRoot_ne_zero, zpow_mul, h8, one_zpow, mul_one]

theorem sqrtTwo_eq : sqrtTwo = eighthRoot - eighthRoot ^ 3 := by
  have h : eighthRoot ^ 3 = eighthRoot * Complex.I := by rw [← eighthRoot_sq]; ring
  rw [h, eighthRoot]
  field_simp
  rw [sqrtTwo_sq]
  linear_combination Complex.I_sq

theorem conj_eighthRoot : (starRingEnd ℂ) eighthRoot = -eighthRoot ^ 3 := by
  have h : eighthRoot ^ 3 = eighthRoot * Complex.I := by rw [← eighthRoot_sq]; ring
  rw [h, eighthRoot]
  simp only [map_div₀, map_add, map_one, Complex.conj_I, conj_sqrtTwo]
  field_simp
  linear_combination Complex.I_sq

namespace CycloInt

/-- The complex number `x₀ + x₁ω + x₂ω² + x₃ω³`. -/
noncomputable def complexHom : CycloInt →+* ℂ where
  toFun x := x.x₀ + x.x₁ * eighthRoot + x.x₂ * eighthRoot ^ 2 + x.x₃ * eighthRoot ^ 3
  map_one' := by simp
  map_zero' := by simp
  map_add' x y := by simp; ring
  map_mul' x y := by
    simp only [mul_x₀, mul_x₁, mul_x₂, mul_x₃]
    push_cast
    linear_combination -(x.x₁ * y.x₃ + x.x₂ * y.x₂ + x.x₃ * y.x₁ +
      (x.x₂ * y.x₃ + x.x₃ * y.x₂) * eighthRoot + x.x₃ * y.x₃ * eighthRoot ^ 2) * eighthRoot_pow_four

theorem complexHom_apply (x : CycloInt) : complexHom x =
    x.x₀ + x.x₁ * eighthRoot + x.x₂ * eighthRoot ^ 2 + x.x₃ * eighthRoot ^ 3 := rfl

@[simp] theorem complexHom_omega : complexHom omega = eighthRoot := by
  simp [complexHom_apply, omega]

@[simp] theorem complexHom_ofQuad (x : QuadInt) : complexHom (ofQuad x) = (QuadInt.realHom x : ℂ) := by
  have h := sqrtTwo_eq
  simp only [complexHom_apply, ofQuad_x₀, ofQuad_x₁, ofQuad_x₂, ofQuad_x₃, QuadInt.realHom_apply]
  push_cast
  rw [← sqrtTwo_eq_ofReal, h]
  ring

theorem complexHom_conj (x : CycloInt) : complexHom x.conj = (starRingEnd ℂ) (complexHom x) := by
  simp only [complexHom_apply, conj_x₀, conj_x₁, conj_x₂, conj_x₃, map_add, map_mul, map_pow, conj_eighthRoot,
    map_intCast]
  push_cast
  linear_combination (x.x₃ * eighthRoot * (eighthRoot ^ 4 - 1) - x.x₂ * eighthRoot ^ 2) *
    eighthRoot_pow_four

theorem complexHom_absSq (x : CycloInt) :
    (QuadInt.realHom x.absSq : ℂ) = complexHom x * (starRingEnd ℂ) (complexHom x) := by
  rw [← complexHom_conj, ← map_mul, mul_conj, complexHom_ofQuad]

theorem complexHom_injective : Function.Injective complexHom := by
  rw [injective_iff_map_eq_zero]
  intro x h
  have hz : QuadInt.realHom x.absSq = 0 := by
    have := complexHom_absSq x
    rw [h, zero_mul] at this
    exact_mod_cast this
  exact (absSq_eq_zero_iff x).1 (QuadInt.realHom_injective (by rw [hz, map_zero]))

@[simp] theorem complexHom_root : complexHom (ofQuad QuadInt.root) = sqrtTwo := by
  rw [complexHom_ofQuad, QuadInt.realHom_root, sqrtTwo_eq_ofReal]

noncomputable instance : NumberRing CycloInt where
  value := complexHom
  value_injective := complexHom_injective
  value_zero := map_zero _
  value_one := map_one _
  value_add := map_add _
  value_sub := map_sub _
  value_neg := map_neg _
  value_mul := map_mul _
  value_timesRoot x := by
    change complexHom x.timesRoot = _
    rw [timesRoot_eq, map_mul, complexHom_root]
  overRoot?_eq_some_iff := overRoot?_eq_some_iff

theorem value_eq (x : CycloInt) : NumberRing.value x = complexHom x := rfl

end CycloInt

/-! ### Fractions over `ℤ[ω]` -/

namespace CycloFrac

open Exponent

variable {E : Type} [Exponent E]

@[simp] theorem value_conj (x : CycloFrac E) : (conj x).value = (starRingEnd ℂ) x.value := by
  rw [conj, RootFrac.value_mk, CycloInt.value_eq, CycloInt.complexHom_conj, RootFrac.value, map_div₀,
    map_pow, conj_sqrtTwo, CycloInt.value_eq]

@[simp] theorem value_ofReal (x : QuadFrac E) : (ofReal x).value = x.value := by
  rw [ofReal, RootFrac.value_mk, CycloInt.value_eq, CycloInt.complexHom_ofQuad, RootFrac.value,
    QuadInt.value_eq]

/-- The value of a squared absolute value, if twice the exponent can be stored. -/
theorem value_absSq (x : CycloFrac E) [Stores E (2 * load x.exp)] :
    (absSq x).value = x.value * (starRingEnd ℂ) x.value := by
  rw [absSq, RootFrac.value_mk, load_store, QuadInt.value_eq, CycloInt.complexHom_absSq, RootFrac.value, map_div₀,
    map_pow, conj_sqrtTwo, CycloInt.value_eq, div_mul_div_comm, ← pow_add, two_mul]

@[simp] theorem value_timesOmegaPow (x : CycloFrac E) (n : ℤ) :
    (timesOmegaPow x n).value = x.value * eighthRoot ^ n := by
  rw [timesOmegaPow, RootFrac.value_mk, CycloInt.timesOmegaPow_eq, CycloInt.value_eq, map_mul, map_pow,
    CycloInt.complexHom_omega, eighthRoot_pow_emod, RootFrac.value, CycloInt.value_eq, div_mul_eq_mul_div]

end CycloFrac

end CliffordT

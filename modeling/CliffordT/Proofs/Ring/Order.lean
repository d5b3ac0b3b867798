import CliffordT.Proofs.Ring.Value

/-!
The order that `ℤ[√2]` and `𝔻[√2]` inherit from the real numbers.

The sign of `a + b√2` is read off the signs of `a` and `b`, and where these differ, off their squares: the difference of `a²`
and `2b²` is the number times a positive one. Fractions are compared through the sign of their difference, so the comparison
is that of the real numbers, whatever the denominators.
-/

namespace CliffordT

namespace QuadInt

/-! ### Signs -/

/-- The order of two integers is the sign of a number whose product with a positive number is their difference. -/
theorem compare_eq_of_mul {x c : ℝ} {m n : ℤ} (hc : 0 < c) (h : x * c = m - n) : compare m n = compare x 0 := by
  calc compare m n = cmp (m : ℝ) n := by rw [Int.cast_strictMono.cmp_map_eq, cmp_eq_compare]
    _ = cmp (x * c) (0 * c) := by rw [h, zero_mul, cmp_sub_zero]
    _ = compare x 0 := by rw [cmp_mul_pos_right hc, cmp_eq_compare]

theorem sign_eq (x : QuadInt) : x.sign = compare (realHom x) 0 := by
  have hroot : 0 < √2 := by positivity
  have hsq : √2 * √2 = 2 := Real.mul_self_sqrt (by norm_num)
  have hneg {b : ℤ} (hb : b < 0) : (b : ℝ) < 0 ∧ (b : ℝ) * √2 < 0 := by
    have hb' : (b : ℝ) < 0 := by exact_mod_cast hb
    exact ⟨hb', mul_neg_of_neg_of_pos hb' hroot⟩
  have hpos {b : ℤ} (hb : 0 < b) : 0 < (b : ℝ) ∧ 0 < (b : ℝ) * √2 := by
    have hb' : 0 < (b : ℝ) := by exact_mod_cast hb
    exact ⟨hb', mul_pos hb' hroot⟩
  rw [sign]
  rcases lt_trichotomy x.a 0 with ha | ha | ha <;> rcases lt_trichotomy x.b 0 with hb | hb | hb
  · rw [compare_lt_iff_lt.2 ha, compare_lt_iff_lt.2 hb, realHom_apply, eq_comm, compare_lt_iff_lt]
    linarith [(hneg ha).1, (hneg hb).2]
  · rw [compare_lt_iff_lt.2 ha, compare_eq_iff_eq.2 hb, realHom_apply, hb, eq_comm, compare_lt_iff_lt]
    simpa using ha
  · rw [compare_lt_iff_lt.2 ha, compare_gt_iff_gt.2 hb]
    refine compare_eq_of_mul (c := x.b * √2 - x.a) (by linarith [(hneg ha).1, (hpos hb).2]) ?_
    rw [realHom_apply]
    push_cast
    linear_combination (x.b : ℝ) * x.b * hsq
  · rw [compare_eq_iff_eq.2 ha, compare_lt_iff_lt.2 hb, realHom_apply, ha, eq_comm, compare_lt_iff_lt,
      Int.cast_zero, zero_add]
    exact (hneg hb).2
  · rw [compare_eq_iff_eq.2 ha, compare_eq_iff_eq.2 hb, realHom_apply, ha, hb, eq_comm, compare_eq_iff_eq]
    simp
  · rw [compare_eq_iff_eq.2 ha, compare_gt_iff_gt.2 hb, realHom_apply, ha, eq_comm, compare_gt_iff_gt,
      Int.cast_zero, zero_add]
    exact (hpos hb).2
  · rw [compare_gt_iff_gt.2 ha, compare_lt_iff_lt.2 hb]
    refine compare_eq_of_mul (c := x.a - x.b * √2) (by linarith [(hpos ha).1, (hneg hb).2]) ?_
    rw [realHom_apply]
    push_cast
    linear_combination -(x.b : ℝ) * x.b * hsq
  · rw [compare_gt_iff_gt.2 ha, compare_eq_iff_eq.2 hb, realHom_apply, hb, eq_comm, compare_gt_iff_gt]
    simpa using ha
  · rw [compare_gt_iff_gt.2 ha, compare_gt_iff_gt.2 hb, realHom_apply, eq_comm, compare_gt_iff_gt]
    linarith [(hpos ha).1, (hpos hb).2]

theorem sign_ne_lt_iff (x : QuadInt) : x.sign ≠ .lt ↔ 0 ≤ realHom x := by
  rw [sign_eq, Ne, compare_lt_iff_lt, not_lt]

/-! ### Nonnegative conjugates -/

theorem isTotallyNonneg_iff_realHom (x : QuadInt) :
    x.isTotallyNonneg = true ↔ 0 ≤ realHom x ∧ 0 ≤ realHom x.bullet := by
  rw [isTotallyNonneg, Bool.and_eq_true, bne_iff_ne, bne_iff_ne, sign_ne_lt_iff, sign_ne_lt_iff]

theorem realHom_add_bullet (x : QuadInt) : realHom x + realHom x.bullet = 2 * x.a := by
  rw [realHom_apply, realHom_apply, bullet_a, bullet_b]
  push_cast
  ring

/-- A number and its conjugate are nonnegative exactly when their mean and their product are. -/
theorem isTotallyNonneg_iff (x : QuadInt) : x.isTotallyNonneg = true ↔ 0 ≤ x.a ∧ 0 ≤ x.norm := by
  have hsum := realHom_add_bullet x
  have hmul := realHom_mul_bullet x
  rw [isTotallyNonneg_iff_realHom]
  constructor
  · rintro ⟨hx, hx'⟩
    have ha : (0 : ℝ) ≤ x.a := by linarith
    have hn : (0 : ℝ) ≤ x.norm := hmul ▸ mul_nonneg hx hx'
    exact ⟨by exact_mod_cast ha, by exact_mod_cast hn⟩
  · rintro ⟨ha, hn⟩
    have ha' : (0 : ℝ) ≤ x.a := by exact_mod_cast ha
    have hn' : (0 : ℝ) ≤ x.norm := by exact_mod_cast hn
    rw [← hmul] at hn'
    obtain h | h := mul_nonneg_iff.1 hn'
    · exact h
    · exact ⟨by linarith, by linarith⟩

theorem isTotallyNonneg_mul {x y : QuadInt} (hx : x.isTotallyNonneg = true) (hy : y.isTotallyNonneg = true) :
    (x * y).isTotallyNonneg = true := by
  rw [isTotallyNonneg_iff_realHom] at hx hy ⊢
  rw [bullet_mul, map_mul, map_mul]
  exact ⟨mul_nonneg hx.1 hy.1, mul_nonneg hx.2 hy.2⟩

end QuadInt

namespace QuadFrac

open Exponent

variable {E : Type} [Exponent E]

/-! ### Fractions -/

/-- The real number of a fraction is read off its value. -/
theorem toReal_eq_of_value {x : QuadFrac E} {r : ℝ} (h : x.value = (r : ℂ)) : x.toReal = r :=
  Complex.ofReal_injective ((value_eq_toReal x).symm.trans h)

theorem toReal_zero : (0 : QuadFrac E).toReal = 0 := toReal_eq_of_value (by simp)

theorem toReal_one : (1 : QuadFrac E).toReal = 1 := toReal_eq_of_value (by simp)

theorem toReal_neg (x : QuadFrac E) : QuadFrac.toReal (-x) = -x.toReal := by
  apply toReal_eq_of_value
  rw [RootFrac.value_neg, value_eq_toReal, Complex.ofReal_neg]

@[simp] theorem toReal_add (x y : QuadFrac E) : (x + y).toReal = x.toReal + y.toReal := by
  apply toReal_eq_of_value
  rw [RootFrac.value_add, value_eq_toReal, value_eq_toReal, Complex.ofReal_add]

@[simp] theorem toReal_sub (x y : QuadFrac E) : (x - y).toReal = x.toReal - y.toReal := by
  apply toReal_eq_of_value
  rw [RootFrac.value_sub, value_eq_toReal, value_eq_toReal, Complex.ofReal_sub]

@[simp] theorem toReal_mul (x y : QuadFrac E) [Stores E (load x.exp + load y.exp)] : (x * y).toReal = x.toReal * y.toReal := by
  apply toReal_eq_of_value
  rw [RootFrac.value_mul, value_eq_toReal, value_eq_toReal, Complex.ofReal_mul]

theorem same_iff_toReal (x y : QuadFrac E) : x.same y = true ↔ x.toReal = y.toReal := by
  rw [RootFrac.same_iff, value_eq_toReal, value_eq_toReal, Complex.ofReal_inj]

theorem sign_eq (x : QuadFrac E) : x.sign = compare x.toReal 0 := by
  have hpow : (0 : ℝ) < √2 ^ load x.exp := by positivity
  have hnum : QuadInt.realHom x.num = x.toReal * √2 ^ load x.exp := by rw [toReal_eq, div_mul_cancel₀ _ hpow.ne']
  calc x.sign = cmp (x.toReal * √2 ^ load x.exp) (0 * √2 ^ load x.exp) := by
        rw [sign, QuadInt.sign_eq, hnum, zero_mul, cmp_eq_compare]
    _ = compare x.toReal 0 := by rw [cmp_mul_pos_right hpow, cmp_eq_compare]

theorem order_eq (x y : QuadFrac E) : order x y = compare x.toReal y.toReal := by
  rw [order, sign_eq, toReal_sub, ← cmp_eq_compare, cmp_sub_zero, cmp_eq_compare]

theorem order_eq_eq_iff (x y : QuadFrac E) : order x y = .eq ↔ x.same y = true := by
  rw [order_eq, compare_eq_iff_eq, same_iff_toReal]

instance : Std.OrientedCmp (order : QuadFrac E → QuadFrac E → Ordering) where
  eq_swap {x y} := by
    rw [order_eq, order_eq]
    exact Std.OrientedOrd.eq_swap

instance : Std.TransCmp (order : QuadFrac E → QuadFrac E → Ordering) where
  isLE_trans {x y z} hxy hyz := by
    rw [order_eq] at hxy hyz ⊢
    exact Std.TransOrd.isLE_trans hxy hyz

theorem order_add_right (x y z : QuadFrac E) : order (x + z) (y + z) = order x y := by
  rw [order_eq, order_eq, toReal_add, toReal_add, ← cmp_eq_compare, cmp_add_right, cmp_eq_compare]

/-- Multiples by a positive number are in the order of the numbers, whatever fractions they are. -/
theorem order_of_multiples {x y z a b : QuadFrac E} (ha : a.toReal = x.toReal * z.toReal) (hb : b.toReal = y.toReal * z.toReal)
    (hz : z.sign = .gt) : order a b = order x y := by
  rw [sign_eq, compare_gt_iff_gt] at hz
  rw [order_eq, order_eq, ha, hb, ← cmp_eq_compare, cmp_mul_pos_right hz, cmp_eq_compare]

/-- Fractions are compared as real numbers, whatever exponents they are stored with. So the comparison is a total order of the numbers,
in which the fractions of one number are equal, and adding a number or multiplying with a positive one keeps it; the products that
are computed are such multiples where their exponents can be stored. In `ℤ[√2]` the sign of a number and that of its conjugate are
found as well. -/
theorem order_exact (E : Type) [Exponent E] :
    (∀ x y : QuadFrac E, order x y = compare x.toReal y.toReal ∧ sign x = compare x.toReal 0 ∧
      (order x y = .eq ↔ x.same y = true)) ∧
    Std.TransCmp (order : QuadFrac E → QuadFrac E → Ordering) ∧
    (∀ x y z : QuadFrac E, order (x + z) (y + z) = order x y ∧
      (sign z = .gt → ∀ a b : QuadFrac E, a.toReal = x.toReal * z.toReal → b.toReal = y.toReal * z.toReal →
        order a b = order x y) ∧
      (Stores E (max (load x.exp) (load y.exp) + load z.exp) → sign z = .gt → order (x * z) (y * z) = order x y)) ∧
    ∀ x : QuadInt, x.sign = compare (x.a + x.b * √2 : ℝ) 0 ∧
      (x.isTotallyNonneg = true ↔ 0 ≤ (x.a + x.b * √2 : ℝ) ∧ 0 ≤ (x.a - x.b * √2 : ℝ)) := by
  refine ⟨fun x y => ⟨order_eq x y, sign_eq x, order_eq_eq_iff x y⟩, inferInstance, fun x y z => ?_, fun x => ?_⟩
  · refine ⟨order_add_right x y z, fun hz a b ha hb => order_of_multiples ha hb hz, fun hstored hz => ?_⟩
    have : Stores E (load x.exp + load z.exp) := hstored.of_le (by omega)
    have : Stores E (load y.exp + load z.exp) := hstored.of_le (by omega)
    exact order_of_multiples (toReal_mul x z) (toReal_mul y z) hz
  · have hbullet : QuadInt.realHom x.bullet = x.a - x.b * √2 := by
      rw [QuadInt.realHom_apply, QuadInt.bullet_a, QuadInt.bullet_b, Int.cast_neg, neg_mul, sub_eq_add_neg]
    rw [← hbullet, ← QuadInt.realHom_apply]
    exact ⟨QuadInt.sign_eq x, QuadInt.isTotallyNonneg_iff_realHom x⟩

/-- The squares of 99 and of `70√2` differ by one, and multiplying with `(5√2 - 7) / √2` keeps their order. -/
theorem order_exact_near_squares :
    sign ⟨⟨-7, 5⟩, (1 : UInt32)⟩ = .gt ∧
      order ((⟨⟨99, 0⟩, 3⟩ : QuadFrac) * ⟨⟨-7, 5⟩, 1⟩) (⟨⟨0, 70⟩, 3⟩ * ⟨⟨-7, 5⟩, 1⟩) = .gt := by
  have hpos : sign ⟨⟨-7, 5⟩, (1 : UInt32)⟩ = .gt := by decide
  have hlarger : order ⟨⟨99, 0⟩, (3 : UInt32)⟩ ⟨⟨0, 70⟩, 3⟩ = .gt := by decide
  have hstored : Stores UInt32 (max 3 3 + 1) := (stores_word_iff _).2 (by decide)
  exact ⟨hpos, (((order_exact UInt32).2.2.1 ⟨⟨99, 0⟩, 3⟩ ⟨⟨0, 70⟩, 3⟩ ⟨⟨-7, 5⟩, 1⟩).2.2 hstored hpos).trans hlarger⟩

end QuadFrac

end CliffordT

import CliffordT.Proofs.Ring.Conjugate
import CliffordT.Proofs.Ring.Order

/-!
Products with powers of `√2`.

A positive power goes into the numerator and is exact, however large it is. A negative power only moves the stored exponent: for a number
other than zero it is exact as long as the sum of the two exponents can be stored. Whether a power is undone by its
inverse depends on the negative one of the two alone. For words of 32 bits this is a condition on the sizes.
-/

namespace CliffordT.QuadFrac

open Exponent

variable {E : Type} [Exponent E]

theorem isZero_iff_toReal (x : QuadFrac E) : x.isZero = true ↔ x.toReal = 0 := by
  rw [RootFrac.isZero_iff, value_eq_toReal, Complex.ofReal_eq_zero]

/-- Two powers of `√2` times a number are the same number if the exponents are the same or the number is zero. -/
theorem mul_sqrt_zpow_inj (r : ℝ) (m n : ℤ) : r * √2 ^ m = r * √2 ^ n ↔ r = 0 ∨ m = n := by
  have hone : √2 ≠ 1 := by
    rw [Ne, Real.sqrt_eq_one]
    norm_num
  rw [mul_eq_mul_left_iff, or_comm, (zpow_right_injective₀ (by positivity) hone).eq_iff]

theorem mul_sqrt_zpow_neg_eq_iff (r s : ℝ) (e : ℤ) : r * √2 ^ (-e) = s ↔ r = s * √2 ^ e := by
  rw [zpow_neg, mul_inv_eq_iff_eq_mul₀ (by positivity)]

/-! ### The two directions -/

variable (x : QuadFrac E) {n : ℕ} {e : ℤ}

theorem shift_natCast (n : ℕ) : shift x n = RootFrac.reduce ⟨Nat.repeat RootTwoRing.timesRoot n x.num, x.exp⟩ := by
  rw [shift, if_pos (Int.natCast_nonneg n), Int.toNat_natCast]
  rfl

theorem shift_of_neg (he : e < 0) : shift x e = ⟨x.num, store (load x.exp + load (store e.natAbs : E))⟩ :=
  if_neg (not_le.2 he)

/-- A positive power goes into the numerator, whatever the exponent. -/
theorem value_shift_natCast (n : ℕ) : (shift x n).value = x.value * sqrtTwo ^ n := by
  rw [shift_natCast, RootFrac.value_reduce, RootFrac.value_mk, RootFrac.value_repeat_timesRoot, mul_div_right_comm,
    ← RootFrac.value]

theorem toReal_shift_of_nonneg (he : 0 ≤ e) : (shift x e).toReal = x.toReal * √2 ^ e := by
  obtain ⟨n, rfl⟩ := Int.eq_ofNat_of_zero_le he
  apply toReal_eq_of_value
  rw [value_shift_natCast, value_eq_toReal, sqrtTwo_eq_ofReal, zpow_natCast]
  push_cast
  rfl

/-- A negative power moves the exponent as far as the sum is stored. -/
theorem toReal_shift_of_neg (he : e < 0) :
    (shift x e).toReal = x.toReal * √2 ^ (load x.exp - load (shift x e).exp : ℤ) := by
  rw [shift_of_neg x he, toReal_eq, toReal_eq x, zpow_sub₀ (by positivity), zpow_natCast, zpow_natCast]
  field_simp

/-- Two exponents that are stored one after the other add up exactly when their sum can be stored. -/
theorem load_store_add_eq_iff (m n : ℕ) :
    load (store (m + load (store n : E)) : E) = m + n ↔ Stores E (m + n) := by
  constructor
  · intro h
    have hsum := load_store_le (E := E) (m + load (store n : E))
    have hn := load_store_le (E := E) n
    rw [show load (store n : E) = n by omega] at h
    exact ⟨h⟩
  · intro h
    have : Stores E n := h.of_le (Nat.le_add_left n m)
    rw [load_store (n := n), load_store]

theorem toReal_shift_eq_iff (e : ℤ) :
    (shift x e).toReal = x.toReal * √2 ^ e ↔ x.toReal = 0 ∨ 0 ≤ e ∨ Stores E (load x.exp + e.natAbs) := by
  rcases le_or_gt 0 e with he | he
  · exact iff_of_true (toReal_shift_of_nonneg x he) (.inr (.inl he))
  · rw [toReal_shift_of_neg x he, mul_sqrt_zpow_inj, or_iff_right (not_le.2 he), shift_of_neg x he, ← load_store_add_eq_iff]
    refine or_congr_right ?_
    dsimp only
    omega

/-! ### Stored exponents -/

variable {x}

/-- A positive power is divided out of the denominator again as far as that goes. -/
theorem exp_shift_add_le {k : ℕ} (hx : load x.exp ≤ k) (hn : n ≤ k) : load (shift x n).exp + n ≤ k := by
  suffices h : load (shift x n).reduce.exp ≤ k - n by
    rw [shift_natCast, RootFrac.reduce_reduce, ← shift_natCast] at h
    omega
  rw [RootFrac.reduce_exp_le_iff]
  refine ⟨x.numOver k, ?_⟩
  rw [value_shift_natCast, mul_assoc, ← pow_add, Nat.add_sub_cancel' hn, ← RootFrac.value_numOver x hx,
    div_mul_cancel₀ _ (by simp)]

/-- Scaling forth and back changes nothing exactly when the negative one of the two powers is exact. -/
theorem same_shift_shift_neg_iff (x : QuadFrac E) (e : ℤ) :
    (shift (shift x e) (-e)).same x = true ↔
      x.toReal = 0 ∨ if 0 ≤ e then Stores E e.natAbs else Stores E (load x.exp + e.natAbs) := by
  rw [same_iff_toReal]
  split
  · next he =>
    -- the second power is the one that may be lost; what is divided out before leaves it room
    obtain ⟨n, rfl⟩ := Int.eq_ofNat_of_zero_le he
    have hforth := toReal_shift_of_nonneg x he
    have hzero : (shift x n).toReal = 0 ↔ x.toReal = 0 := by
      rw [hforth, mul_eq_zero, or_iff_left (by positivity)]
    have hroom : (0 ≤ -(n : ℤ) ∨ Stores E (load (shift x n).exp + n)) ↔ Stores E n := by
      constructor
      · rintro (h | h)
        · obtain rfl : n = 0 := by omega
          infer_instance
        · exact h.of_le (Nat.le_add_left _ _)
      · intro h
        have hmax : Stores E (max (load x.exp) n) := inferInstance
        exact .inr (hmax.of_le (exp_shift_add_le (le_max_left _ _) (le_max_right _ _)))
    conv_lhs => rw [← (mul_sqrt_zpow_neg_eq_iff _ _ (n : ℤ)).2 hforth]
    rw [toReal_shift_eq_iff, hzero, Int.natAbs_neg, Int.natAbs_natCast, hroom]
  · next he =>
    rw [toReal_shift_of_nonneg _ (by omega), mul_sqrt_zpow_neg_eq_iff, toReal_shift_eq_iff, or_iff_right he]

/-- A product with a power of `√2` is exact unless the exponent is negative and the sum of the exponents is no word; a number other
than zero is wrong then. A power is undone by its inverse under the same condition on the negative one of the two. Where already
the words that are added overflow there may be no result; where they do not, the product is exact just for exponents
above `-2 ^ 32`. -/
theorem shift_exact_iff (x : QuadFrac) (e : ℤ) :
    ((shift x e).toReal = x.toReal * √2 ^ e ↔ x.isZero = true ∨ 0 ≤ e ∨ x.exp.toNat + e.natAbs < 2 ^ 32) ∧
      ((shift (shift x e) (-e)).same x = true ↔
        x.isZero = true ∨ if 0 ≤ e then e < 2 ^ 32 else x.exp.toNat + e.natAbs < 2 ^ 32) ∧
      (x.exp.toNat + e.natAbs % 2 ^ 32 < 2 ^ 32 →
        ((shift x e).toReal = x.toReal * √2 ^ e ↔ x.isZero = true ∨ -2 ^ 32 < e)) := by
  have hexact := toReal_shift_eq_iff x e
  rw [← isZero_iff_toReal, stores_word_iff] at hexact
  refine ⟨hexact, ?_, fun hfit => ?_⟩
  · rw [same_shift_shift_neg_iff, isZero_iff_toReal, stores_word_iff, stores_word_iff]
    refine or_congr_right ?_
    split
    · omega
    · rfl
  · rw [hexact]
    refine or_congr_right ?_
    have hword := x.exp.toNat_lt
    change _ ∨ x.exp.toNat + e.natAbs < 2 ^ 32 ↔ _
    omega

/-- The power of `√2` with the exponent `-2 ^ 32` changes nothing and is not undone, the one before it is exact. -/
theorem shift_exact_iff_root :
    QuadFrac.toReal (shift ⟨QuadInt.root, (0 : UInt32)⟩ (-4294967296)) ≠
        QuadFrac.toReal ⟨QuadInt.root, (0 : UInt32)⟩ * √2 ^ (-4294967296 : ℤ) ∧
      (shift (shift ⟨QuadInt.root, (0 : UInt32)⟩ (-4294967296)) (- -4294967296)).same ⟨QuadInt.root, 0⟩ ≠ true ∧
      QuadFrac.toReal (shift ⟨QuadInt.root, (0 : UInt32)⟩ (-4294967295)) =
        QuadFrac.toReal ⟨QuadInt.root, (0 : UInt32)⟩ * √2 ^ (-4294967295 : ℤ) := by
  have hroot : (⟨QuadInt.root, 0⟩ : QuadFrac).isZero = false := by decide
  refine ⟨?_, ?_, ?_⟩
  · rw [Ne, (shift_exact_iff ⟨QuadInt.root, 0⟩ _).1, hroot]
    decide
  · rw [Ne, (shift_exact_iff ⟨QuadInt.root, 0⟩ _).2.1, hroot]
    decide
  · rw [(shift_exact_iff ⟨QuadInt.root, 0⟩ _).1, hroot]
    decide

end CliffordT.QuadFrac

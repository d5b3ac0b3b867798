import CliffordT.Number.Bits
import CliffordT.Number.Root
import Mathlib.Algebra.Group.Even
import Mathlib.Data.Nat.Log
import Mathlib.Data.Nat.Sqrt
import Mathlib.Tactic.Linarith

/-!
The length of a number in binary digits, and the integer root found by Newton's iteration.
-/

namespace CliffordT

theorem twoPow_eq (n : ℕ) : twoPow n = 2 ^ n := rfl

@[simp] theorem bitLength_zero : bitLength 0 = 0 := rfl

theorem bitLength_eq_zero_iff {n : ℕ} : bitLength n = 0 ↔ n = 0 := by
  rw [bitLength]
  split <;> simp [*]

theorem lt_two_pow_bitLength (n : ℕ) : n < 2 ^ bitLength n := by
  rw [bitLength]
  split
  · next h => simp [h]
  · exact Nat.lt_log2_self

theorem two_pow_le_of_bitLength {n k : ℕ} (h : k < bitLength n) : 2 ^ k ≤ n := by
  rw [bitLength] at h
  split at h
  · omega
  · next hn => exact (Nat.pow_le_pow_right (by norm_num) (by omega)).trans (Nat.log2_self_le hn)

theorem bitLength_le_iff {n k : ℕ} : bitLength n ≤ k ↔ n < 2 ^ k := by
  constructor
  · intro h
    exact (lt_two_pow_bitLength n).trans_le (Nat.pow_le_pow_right (by norm_num) h)
  · intro h
    by_contra hlt
    exact absurd (two_pow_le_of_bitLength (not_le.1 hlt)) (not_le.2 h)

theorem bitLength_eq_succ_iff {n k : ℕ} : bitLength n = k + 1 ↔ 2 ^ k ≤ n ∧ n < 2 ^ (k + 1) := by
  rw [← bitLength_le_iff, ← not_lt, ← bitLength_le_iff]
  omega

theorem bitLength_mono {m n : ℕ} (h : m ≤ n) : bitLength m ≤ bitLength n :=
  bitLength_le_iff.2 (h.trans_lt (lt_two_pow_bitLength n))

/-- Dividing by a power of two costs as many bits, if any are left. -/
theorem bitLength_div_two_pow_le {n k : ℕ} (h : n / 2 ^ k ≠ 0) : bitLength (n / 2 ^ k) + k ≤ bitLength n := by
  have hlarge : 2 ^ k ≤ n := by
    by_contra hlt
    exact h (Nat.div_eq_of_lt (not_le.1 hlt))
  have hk : k < bitLength n := by
    by_contra hge
    exact absurd (bitLength_le_iff.1 (not_lt.1 hge)) (not_lt.2 hlarge)
  have hquotient : bitLength (n / 2 ^ k) ≤ bitLength n - k := by
    rw [bitLength_le_iff, Nat.div_lt_iff_lt_mul (Nat.two_pow_pos k), ← pow_add, Nat.sub_add_cancel hk.le]
    exact lt_two_pow_bitLength n
  omega

/-! ### Integer roots -/

/-- The mean of `x` and `n / x` is not below the root of `n`. -/
theorem lt_succ_sq_newton {n x : ℕ} (hx : 0 < x) :
    n < ((x + n / x) / 2 + 1) * ((x + n / x) / 2 + 1) := by
  have hdiv : n < x * (n / x + 1) := Nat.lt_mul_div_succ n hx
  have hmean : x + (n / x + 1) ≤ 2 * ((x + n / x) / 2 + 1) := by omega
  have hsq : 4 * (x * (n / x + 1)) ≤ (x + (n / x + 1)) * (x + (n / x + 1)) := by
    zify
    nlinarith [sq_nonneg ((x : ℤ) - (n / x + 1))]
  have hmono := Nat.mul_self_le_mul_self hmean
  nlinarith

/-- Where the iteration stops, `n / x` is at least `x`; that it never goes below the root is carried along. -/
theorem newtonRoot_spec {n x : ℕ} (hx : 0 < x) (hn : 0 < n) (h : n < (x + 1) * (x + 1)) :
    newtonRoot n x * newtonRoot n x ≤ n ∧ n < (newtonRoot n x + 1) * (newtonRoot n x + 1) := by
  induction x using newtonRoot.induct n with
  | case1 x y hlt ih =>
    rw [newtonRoot]
    simp only [y] at hlt ih
    simp only [hlt, if_true]
    refine ih ?_ (lt_succ_sq_newton hx)
    by_contra h0
    have hlow : n < 1 * 1 := by
      have := lt_succ_sq_newton (n := n) hx
      rwa [Nat.eq_zero_of_not_pos h0] at this
    omega
  | case2 x y hge =>
    rw [newtonRoot]
    simp only [y] at hge
    simp only [hge, if_false]
    refine ⟨?_, h⟩
    have hq : x ≤ n / x := by omega
    exact (Nat.mul_le_mul_left x hq).trans (Nat.mul_div_le n x)

theorem natRoot_spec (n : ℕ) : natRoot n * natRoot n ≤ n ∧ n < (natRoot n + 1) * (natRoot n + 1) := by
  rw [natRoot]
  split
  · next h => simp [h]
  · next hn =>
    refine newtonRoot_spec (twoPow_pos _) (Nat.pos_of_ne_zero hn) ?_
    have hpow : n < 2 ^ (n.log2 / 2 + 1) * 2 ^ (n.log2 / 2 + 1) := by
      rw [← pow_add]
      exact Nat.lt_log2_self.trans_le (Nat.pow_le_pow_right (by norm_num) (by omega))
    exact hpow.trans_le (Nat.mul_self_le_mul_self (Nat.le_succ _))

theorem natRoot_eq_sqrt (n : ℕ) : natRoot n = n.sqrt := Nat.eq_sqrt.2 (natRoot_spec n)

theorem natRoot_mul_self_iff (n : ℕ) : natRoot n * natRoot n = n ↔ IsSquare n := by
  rw [natRoot_eq_sqrt, ← Nat.exists_mul_self]
  exact ⟨fun ⟨r, hr⟩ => ⟨r, hr.symm⟩, fun ⟨r, hr⟩ => ⟨r, hr.symm⟩⟩

theorem natRoot_lt_self {n : ℕ} (hn : 1 < n) : natRoot n < n := by
  rw [natRoot_eq_sqrt]
  exact Nat.sqrt_lt_self hn

end CliffordT

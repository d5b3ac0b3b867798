import Mathlib.Data.Nat.Log
import Mathlib.Tactic.NormNum
import CliffordT.Text.Numeral

/-!
Reading a numeral gives the number back.

A run of `2 ^ level` digits continues what has been read before it as a number written to base ten does, leading zeros
included, and the level chosen for a number has room for all its digits. So different numbers have different numerals, which
consist of digits.
-/

namespace CliffordT.Numeral

theorem ofDigitChars_padded {level n : ℕ} (h : n < 10 ^ 2 ^ level) (behind : List Char) (init : ℕ) :
    Nat.ofDigitChars 10 (padded level n behind) init = Nat.ofDigitChars 10 behind (10 ^ 2 ^ level * init + n) := by
  induction level generalizing n behind init with
  | zero =>
    rw [pow_zero, pow_one] at h
    rw [padded, Nat.ofDigitChars_cons_digitChar_of_lt_ten h, pow_zero, pow_one]
  | succ level ih =>
    have hhalf : tenPow (twoPow level) = 10 ^ 2 ^ level := rfl
    have hsquare : 10 ^ 2 ^ (level + 1) = 10 ^ 2 ^ level * 10 ^ 2 ^ level := by rw [pow_succ, mul_two, pow_add]
    rw [padded, hhalf, ih (Nat.div_lt_of_lt_mul (hsquare ▸ h)), ih (Nat.mod_lt n (by positivity)), hsquare, mul_add,
      mul_assoc, add_assoc, Nat.div_add_mod]

/-- Leading zeros do not count. -/
theorem ofDigitChars_dropWhile (cs : List Char) :
    Nat.ofDigitChars 10 (cs.dropWhile (· = '0')) 0 = Nat.ofDigitChars 10 cs 0 := by
  induction cs with
  | nil => rfl
  | cons c cs ih =>
    rw [List.dropWhile_cons]
    split
    · next hzero =>
      obtain rfl := of_decide_eq_true hzero
      rw [ih, Nat.ofDigitChars_cons, Nat.sub_self]
    · rfl

/-- There is room for all digits of a number: it has fewer than three times as many binary ones. -/
theorem lt_ten_pow_levelFor (n : ℕ) : n < 10 ^ 2 ^ levelFor n := by
  have hlevel : n.log2 / 3 + 1 < 2 ^ levelFor n := Nat.lt_log2_self
  calc n < 2 ^ (n.log2 + 1) := Nat.lt_log2_self
    _ ≤ 2 ^ (3 * 2 ^ levelFor n) := Nat.pow_le_pow_right (by norm_num) (by omega)
    _ = 8 ^ 2 ^ levelFor n := pow_mul 2 3 _
    _ ≤ 10 ^ 2 ^ levelFor n := Nat.pow_le_pow_left (by norm_num) _

theorem ofDigitChars_digits (n : ℕ) : Nat.ofDigitChars 10 (digits n) 0 = n := by
  rw [digits]
  split
  · next h => rw [Nat.ofDigitChars_cons_digitChar_of_lt_ten h, Nat.ofDigitChars_nil, mul_zero, zero_add]
  · rw [ofDigitChars_dropWhile, ofDigitChars_padded (lt_ten_pow_levelFor n), Nat.ofDigitChars_nil, mul_zero, zero_add]

theorem isDigit_padded {level n : ℕ} (h : n < 10 ^ 2 ^ level) {behind : List Char} (hbehind : ∀ c ∈ behind, c.isDigit = true) :
    ∀ c ∈ padded level n behind, c.isDigit = true := by
  induction level generalizing n behind with
  | zero =>
    rw [pow_zero, pow_one] at h
    exact List.forall_mem_cons.2 ⟨Nat.isDigit_digitChar.trans (decide_eq_true h), hbehind⟩
  | succ level ih =>
    have hsquare : 10 ^ 2 ^ (level + 1) = 10 ^ 2 ^ level * 10 ^ 2 ^ level := by rw [pow_succ, mul_two, pow_add]
    exact ih (Nat.div_lt_of_lt_mul (hsquare ▸ h)) (ih (Nat.mod_lt n (by positivity)) hbehind)

theorem isDigit_digits (n : ℕ) : ∀ c ∈ digits n, c.isDigit = true := by
  rw [digits]
  split
  · next h => exact List.forall_mem_singleton.2 (Nat.isDigit_digitChar.trans (decide_eq_true h))
  · exact fun c hc => isDigit_padded (lt_ten_pow_levelFor n) (by simp) c ((List.dropWhile_sublist _).mem hc)

theorem digits_ne_nil (n : ℕ) : digits n ≠ [] := by
  intro h
  have hzero : n = 0 := by rw [← ofDigitChars_digits n, h, Nat.ofDigitChars_nil]
  rw [hzero] at h
  exact absurd h (by decide)

theorem toList_ofNat (n : ℕ) : (ofNat n).toList = digits n := String.toList_ofList

theorem ofNat_injective : Function.Injective ofNat := by
  intro m n h
  have hdigits : digits m = digits n := String.ofList_injective h
  rw [← ofDigitChars_digits m, hdigits, ofDigitChars_digits]

end CliffordT.Numeral

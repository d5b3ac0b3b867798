import CliffordT.Proofs.Working.Precision

/-!
The constant `π` of a working precision has the digits that are promised.

The loop of either arctangent ends because a truncated quotient by `25` or more loses four bits at least, so that there are
fewer terms than bits. Its error was counted in units of the last place; as long as the bits themselves are counted in thirty-one
bits, so many units are far below the guard bits, and below the last decimal digit.
-/

namespace CliffordT

/-! ### The loop -/

namespace Machin

/-- The loop over the terms from number `n` on, with no way out but a power that vanishes: `last` is the number of the term that
is not formed any more. -/
inductive Runs (square : ℕ) : ℕ → ℕ → ℤ → ℕ → ℤ → Prop
  | stop {power n : ℕ} {sum : ℤ} (h : power / square = 0) : Runs square power n sum n sum
  | more {power next n last : ℕ} {sum term out : ℤ} (hnext : power / square = next) (hpos : next ≠ 0)
      (hterm : (next / (2 * n + 1) : ℕ) = term)
      (rest : Runs square next (n + 1) (if n % 2 = 1 then sum - term else sum + term) last out) :
      Runs square power n sum last out

variable {square x : ℕ}

theorem exists_runs (hsquare : 16 ≤ square) (power n : ℕ) (sum : ℤ) :
    ∃ last, Runs square power n sum last (arctanTail square power n sum) ∧ 4 * last ≤ 4 * n + bitLength power := by
  -- The power loses four bits with every term, so it cannot be one that is no larger than its quotient.
  induction power using Nat.strong_induction_on generalizing n sum with
  | _ power ih =>
    obtain ⟨next, hnext⟩ : ∃ next, power / square = next := ⟨_, rfl⟩
    have hquotient : next ≤ power / 2 ^ 4 := hnext ▸ Nat.div_le_div_left hsquare (by norm_num)
    rw [arctanTail]
    simp only [hnext]
    split
    · next hstop => exact ⟨n, .stop (by omega), by omega⟩
    · next hgo =>
      obtain ⟨last, hruns, hlast⟩ := ih next (by omega) (n + 1) _
      have hlen := bitLength_div_two_pow_le (n := power) (k := 4) (by omega)
      have hmono := bitLength_mono hquotient
      exact ⟨last, .more hnext (by omega) (by push_cast; rfl) hruns, by omega⟩

/-- The loop of an arctangent ends, with a counter of at most a quarter of the bits. -/
theorem exists_runs_arctanInv (hx : 4 ≤ x) (bits : ℕ) :
    ∃ last, Runs (x * x) (2 ^ bits / x) 1 (2 ^ bits / x : ℕ) last (arctanInv x bits) ∧ 4 * last ≤ bits + 4 := by
  obtain ⟨last, hruns, hlast⟩ := exists_runs (Nat.mul_le_mul hx hx) (2 ^ bits / x) 1 (2 ^ bits / x : ℕ)
  have hlen : bitLength (2 ^ bits / x) ≤ bits :=
    bitLength_le_iff.2 (Nat.div_lt_self (Nat.two_pow_pos bits) (by omega))
  refine ⟨last, ?_, by omega⟩
  rw [arctanInv, twoPow_eq]
  exact hruns

/-! ### The digits -/

theorem abs_scaledPi_div_sub_le {bits : ℕ} (hbits : bits < 2 ^ 31) :
    |(scaledPi bits : ℝ) / 2 ^ bits - Real.pi| ≤ 2 ^ (-(bits - 32 : ℤ)) := by
  have hpow : (0 : ℝ) < 2 ^ bits := by positivity
  have hcount : (bits : ℝ) ≤ 2147483648 := by exact_mod_cast hbits.le
  have hsum := abs_scaledPi_sub_le bits
  rw [div_sub' hpow.ne', abs_div, abs_of_pos hpow, div_le_iff₀ hpow, ← zpow_natCast, ← zpow_add₀ two_ne_zero,
    show -(bits - 32 : ℤ) + bits = 32 by ring]
  norm_num at hsum ⊢
  linarith

end Machin

/-- Powers of ten are compared with powers of two through one pair of exponents. -/
theorem ten_pow_le_two_pow {p q m n : ℕ} (hq : q ≠ 0) (hpq : 10 ^ q ≤ 2 ^ p) (h : p * n ≤ q * m) : 10 ^ n ≤ 2 ^ m := by
  refine (Nat.pow_le_pow_iff_left hq).1 ?_
  calc (10 ^ n) ^ q = (10 ^ q) ^ n := pow_right_comm ..
    _ ≤ (2 ^ p) ^ n := Nat.pow_le_pow_left hpq n
    _ = 2 ^ (p * n) := (pow_mul ..).symm
    _ ≤ 2 ^ (q * m) := Nat.pow_le_pow_right (by norm_num) h
    _ = (2 ^ m) ^ q := by rw [mul_comm, pow_mul]

namespace Precision

variable {c : Precision}

theorem ten_pow_digits_le (hc : c.bits < 2 ^ 31) : 10 ^ c.digits ≤ 2 ^ (c.bits - 24) := by
  have h32 := c.le_bits
  have hbits : (c.bits : ℝ) ≤ 2147483648 := by exact_mod_cast hc.le
  have hlow := c.bits_bounds.1
  rw [BinaryLog.toReal_ten] at hlow
  norm_num at hlow
  -- a fraction that exceeds the logarithm of ten by less than `10⁻⁸`
  refine ten_pow_le_two_pow (p := 28738) (q := 8651) (by norm_num) (by decide +kernel) ?_
  have hreal : (28738 : ℝ) * c.digits ≤ 8651 * (c.bits - 24) := by linarith
  rw [← Nat.cast_ofNat, ← Nat.cast_ofNat] at hreal
  zify [(by omega : 24 ≤ c.bits)]
  exact_mod_cast hreal

/-- The constant is off by eight bits less than are kept in hand. -/
theorem abs_pi_sub_le (hc : c.bits < 2 ^ 31) :
    |(Approx.pi : Approx c.bits).toReal - Real.pi| ≤ 2 ^ (24 - c.bits : ℤ) := by
  have h32 := c.le_bits
  have hcount : c.bits / 4096 + 2 ≤ 2 ^ 20 := by omega
  have hulp : 2 * ((2 ^ 20 : ℕ) : ℝ) * ulp c.bits = 2 ^ (22 - c.bits : ℤ) := by
    rw [ulp_eq, show (22 - c.bits : ℤ) = 21 + (1 - c.bits) by ring, zpow_add₀ two_ne_zero]
    norm_num
  have hdrift := drift_le (hulp.trans_le (zpow_le_one_of_nonpos₀ one_le_two (by omega)))
  rw [hulp] at hdrift
  calc |(Approx.pi : Approx c.bits).toReal - Real.pi| ≤ drift c.bits (c.bits / 4096 + 2) * Real.pi :=
        Approx.Near.pi.error
    _ ≤ 2 ^ (22 - c.bits : ℤ) * 4 :=
        mul_le_mul ((drift_mono c.bits hcount).trans hdrift) Real.pi_le_four Real.pi_pos.le (by positivity)
    _ = 2 ^ (24 - c.bits : ℤ) := by
        rw [show (24 - c.bits : ℤ) = 22 - c.bits + 2 by ring, zpow_add₀ two_ne_zero]
        norm_num

/-- The loops of both arctangents end by themselves at every number of bits, with counters shorter than the bits, and the integer that is
formed of them is `π` up to the guard bits as long as the bits are counted in thirty-one bits. So the constant of such a
precision is within the error that is granted to a computation, and has all the decimal digits that were asked for. -/
theorem pi_accurate :
    (∀ x ∈ ({5, 239} : Set ℕ), ∀ bits, ∃ last,
      Machin.Runs (x * x) (2 ^ bits / x) 1 (2 ^ bits / x : ℕ) last (Machin.arctanInv x bits) ∧ 4 * last ≤ bits + 4) ∧
    (∀ bits : ℕ, bits < 2 ^ 31 → |(Machin.scaledPi bits : ℝ) / 2 ^ bits - Real.pi| ≤ 2 ^ (-(bits - 32 : ℤ))) ∧
    ∀ c : Precision, c.bits < 2 ^ 31 →
      |(Approx.pi : Approx c.bits).toReal - Real.pi| ≤ (Approx.tolerance : Approx c.bits).toReal ∧
      |(Approx.pi : Approx c.bits).toReal - Real.pi| ≤ 10 ^ (-(c.digits : ℤ)) := by
  refine ⟨fun x hx bits => Machin.exists_runs_arctanInv ?_ bits, fun bits => Machin.abs_scaledPi_div_sub_le, fun c hc => ?_⟩
  · rcases hx with rfl | rfl <;> norm_num
  have h32 := c.le_bits
  have herror := abs_pi_sub_le hc
  constructor
  · rw [Approx.tolerance, Approx.toReal_powTwo, Approx.guardBits, Nat.cast_sub h32]
    refine herror.trans (zpow_le_zpow_right₀ one_le_two ?_)
    push_cast
    linarith
  · have hten : (10 : ℝ) ^ c.digits ≤ 2 ^ (c.bits - 24) := by exact_mod_cast ten_pow_digits_le hc
    refine herror.trans ?_
    rw [show (24 - c.bits : ℤ) = -((c.bits - 24 : ℕ) : ℤ) by omega, zpow_neg, zpow_natCast, zpow_neg, zpow_natCast]
    exact inv_anti₀ (by positivity) hten

/-- Sixty digits. -/
theorem pi_accurate_sixty : (ofDigits 60).bits < 2 ^ 31 ∧
    |(Approx.pi : Approx (ofDigits 60).bits).toReal - Real.pi| ≤ 10 ^ (-60 : ℤ) ∧
    |(Machin.scaledPi 232 : ℝ) / 2 ^ 232 - Real.pi| ≤ 2 ^ (-(232 - 32) : ℤ) := by
  have hbits : (ofDigits 60).bits < 2 ^ 31 := by decide +kernel
  exact ⟨hbits, (pi_accurate.2.2 (ofDigits 60) hbits).2, pi_accurate.2.1 232 (by norm_num)⟩

end Precision

end CliffordT

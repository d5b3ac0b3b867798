import CliffordT.Proofs.Working.Precision

/-!
The sine and cosine of a working precision keep the digits it promises.

The guard bits are what a count of roundings is compared with: the loop costs two for every term, of which there are few for
the number of bits, and the reduction of the argument as many as there are in the computed `π`.
-/

namespace CliffordT

namespace Precision

variable {c : Precision}

/-- Precisions whose digits are counted in thirty-two bits. -/
theorem bits_le (hc : c.digits < 2 ^ 32) : c.bits ≤ 2 ^ 34 := by
  obtain ⟨-, hhigh⟩ := bits_bounds c
  have hdigits : (c.digits : ℝ) ≤ 4294967296 := by exact_mod_cast hc.le
  have hmul := mul_le_mul_of_nonneg_left BinaryLog.ten_lt.le (Nat.cast_nonneg (α := ℝ) c.digits)
  norm_num at hhigh
  have : (c.bits : ℝ) ≤ 17179869184 := by linarith
  exact_mod_cast this

/-- Twenty bits are gained with every term, once the terms are numerous. -/
theorem exists_enough (hc : c.digits < 2 ^ 32) : ∃ m ≤ 859 * 10 ^ 6, Approx.Enough c.bits m := by
  have hbits := bits_le hc
  exact ⟨max (2 ^ 24) ((c.bits + 10) / 20 + 1), by omega, 20, by omega, by omega⟩

theorem two_zpow_guard (p : ℕ) : (2 : ℝ) ^ (-(p - 32 : ℤ)) = 2 ^ 31 * ulp p := by
  rw [ulp_eq, ← zpow_natCast, ← zpow_add₀ two_ne_zero]
  push_cast
  ring_nf

theorem drift_trigRoundings_le_half (c : Precision) : drift c.bits (Approx.trigRoundings c.bits) ≤ 1 / 2 := by
  have hbits : (32 : ℝ) ≤ c.bits := by exact_mod_cast c.le_bits
  have hulp := c.bits_mul_ulp_le
  have hcount : 2 * (Approx.trigRoundings c.bits : ℝ) * ulp c.bits ≤ 1 / 2 := by
    have := mul_le_mul_of_nonneg_right hbits (ulp_pos c.bits).le
    rw [Approx.trigRoundings]
    push_cast
    norm_num at hulp
    linarith
  exact (drift_le (hcount.trans (by norm_num))).trans hcount

theorem drift_reductionRoundings_le (hc : c.digits < 2 ^ 32) :
    drift c.bits (Approx.reductionRoundings c.bits) ≤ 2 * c.bits * ulp c.bits ∧
      drift c.bits (Approx.reductionRoundings c.bits) ≤ 2 ^ 25 * ulp c.bits := by
  have hbits := bits_le hc
  have h32 := c.le_bits
  have hpos := (ulp_pos c.bits).le
  have hsize : Approx.reductionRoundings c.bits ≤ c.bits ∧ Approx.reductionRoundings c.bits ≤ 2 ^ 24 := by
    rw [Approx.reductionRoundings]
    omega
  have hfirst : (2 * Approx.reductionRoundings c.bits : ℝ) * ulp c.bits ≤ 2 * c.bits * ulp c.bits :=
    mul_le_mul_of_nonneg_right (by exact_mod_cast Nat.mul_le_mul_left 2 hsize.1) hpos
  have hsecond : (2 * Approx.reductionRoundings c.bits : ℝ) * ulp c.bits ≤ 2 ^ 25 * ulp c.bits :=
    mul_le_mul_of_nonneg_right (by exact_mod_cast Nat.mul_le_mul_left 2 hsize.2) hpos
  have hulp := c.bits_mul_ulp_le
  have hdrift := drift_le (p := c.bits) (k := Approx.reductionRoundings c.bits) (by norm_num at hulp; linarith)
  exact ⟨hdrift.trans hfirst, hdrift.trans hsecond⟩

/-- At any precision whose digits are counted in thirty-two bits, the loop of sine and cosine ends by itself, before its counters
need more than sixty-four bits, and the results are as accurate as the precision promises, if the argument leaves forty
bits after the point. -/
theorem sinCos_accurate (c : Precision) (hc : c.digits < 2 ^ 32) (x : Approx c.bits)
    (hx : |x.toReal| ≤ 2 ^ (c.bits - 40 : ℤ)) :
    (∃ last out, Approx.Series.Runs (x.reduced * x.reduced) (Approx.limit c.bits) 1 (.first x.reduced) last out ∧
      2 * last * (2 * last + 1) < 2 ^ 64 ∧ Approx.sinCos x = (out.sin, out.cos)) ∧
    |(Approx.sinCos x).1.toReal - Real.sin x.toReal| ≤ (1 + |x.toReal|) * 2 ^ (-(c.bits - 32 : ℤ)) ∧
    |(Approx.sinCos x).2.toReal - Real.cos x.toReal| ≤ (1 + |x.toReal|) * 2 ^ (-(c.bits - 32 : ℤ)) := by
  have h32 := c.le_bits
  have hpos := ulp_pos c.bits
  have hx0 := abs_nonneg x.toReal
  obtain ⟨m, hm, henough⟩ := exists_enough hc
  obtain ⟨hsmall, hlarge⟩ := drift_reductionRoundings_le hc
  have hulp := c.bits_mul_ulp_le
  have hargument : drift c.bits (Approx.reductionRoundings c.bits) * (8 * |x.toReal| + 8) ≤ 1 := by
    have hsize : ulp c.bits * 2 ^ (c.bits - 40 : ℤ) = 2 ^ (-39 : ℤ) := by
      rw [ulp_eq, ← zpow_add₀ two_ne_zero]
      congr 1
      ring
    have h₁ := mul_le_mul_of_nonneg_right hlarge hx0
    have h₂ := mul_le_mul_of_nonneg_left hx hpos.le
    rw [hsize] at h₂
    norm_num at h₁ h₂ hulp
    linarith
  obtain ⟨last, hlast, out, hruns, hout, hsin, hcos⟩ :=
    Approx.exists_runs_sinCos (by omega) x hargument c.drift_trigRoundings_le_half henough
  have hbudget : ulp c.bits * (2 * last + 660) +
      drift c.bits (Approx.reductionRoundings c.bits) * (3 * |x.toReal| + 4) ≤
        (1 + |x.toReal|) * 2 ^ (-(c.bits - 32 : ℤ)) := by
    have hterms : (2 * last + 660 : ℝ) ≤ 1719 * 10 ^ 6 := by exact_mod_cast (by omega : 2 * last + 660 ≤ 1719 * 10 ^ 6)
    have h₁ := mul_le_mul_of_nonneg_left hterms hpos.le
    have h₂ := mul_le_mul_of_nonneg_right hlarge (by positivity : 0 ≤ 3 * |x.toReal| + 4)
    have h₃ := mul_nonneg hpos.le hx0
    rw [two_zpow_guard]
    linarith
  rw [hout]
  refine ⟨⟨last, out, hruns, ?_, rfl⟩, hsin.trans hbudget, hcos.trans hbudget⟩
  have := Nat.mul_le_mul (by omega : 2 * last ≤ 1719 * 10 ^ 6) (by omega : 2 * last + 1 ≤ 1719 * 10 ^ 6)
  omega

/-- An argument of many turns at the lowest precision. -/
theorem sinCos_accurate_thousand : (ofDigits 16).digits < 2 ^ 32 ∧
    |(Approx.sinCos (⟨1000, 0⟩ : Approx (ofDigits 16).bits)).1.toReal - Real.sin 1000| ≤
      (1 + 1000) * 2 ^ (-((ofDigits 16).bits - 32 : ℤ)) := by
  have hvalue : (⟨1000, 0⟩ : Approx (ofDigits 16).bits).toReal = 1000 := by simp [Approx.toReal_mk]
  have hbits : (ofDigits 16).bits = 86 := by decide +kernel
  have h := (sinCos_accurate (ofDigits 16) (by decide) ⟨1000, 0⟩ (by
    rw [hvalue, hbits]
    norm_num)).2.1
  rw [hvalue, abs_of_pos (by norm_num : (0 : ℝ) < 1000)] at h
  exact ⟨by decide, h⟩

end Precision

end CliffordT

import CliffordT.Proofs.Working.Rounding

/-!
Rounding as a relation between real numbers.

A rounding gives a nearest number of the precision, and it depends on the rounded number only, not on the significand
and exponent that stand for it. So it is monotone. A sum of numbers of the precision is the rounding of the exact sum,
also where a summand is replaced because it is too small to matter.
-/

namespace CliffordT

/-! ### Shifted integers -/

theorem bitLength_mul_two_pow {n : ℕ} (hn : n ≠ 0) (t : ℕ) : bitLength (n * 2 ^ t) = bitLength n + t := by
  obtain ⟨k, hk⟩ : ∃ k, bitLength n = k + 1 := Nat.exists_eq_succ_of_ne_zero (mt bitLength_eq_zero_iff.1 hn)
  obtain ⟨hlow, hhigh⟩ := bitLength_eq_succ_iff.1 hk
  rw [hk, Nat.add_right_comm, bitLength_eq_succ_iff, pow_add, Nat.add_right_comm k t 1, pow_add]
  exact ⟨Nat.mul_le_mul_right _ hlow, Nat.mul_lt_mul_of_pos_right hhigh (Nat.two_pow_pos t)⟩

theorem roundShift_mul_two_pow (n s t : ℕ) : roundShift (n * 2 ^ t) (s + t) = roundShift n s := by
  have hpos := Nat.two_pow_pos t
  obtain rfl | ⟨k, rfl⟩ : s = 0 ∨ ∃ k, s = k + 1 := by
    cases s with
    | zero => exact .inl rfl
    | succ k => exact .inr ⟨k, rfl⟩
  · rw [Nat.zero_add, roundShift_eq_of_near (c := n)]
    · rfl
    · push_cast
      rw [sub_self, abs_zero, mul_zero]
      positivity
  · rw [roundShift, roundShift, if_neg (Nat.succ_ne_zero k), if_neg (by omega : k + 1 + t ≠ 0)]
    have hquot : (n * 2 ^ t) >>> (k + 1 + t) = n >>> (k + 1) := by
      rw [Nat.shiftRight_eq_div_pow, Nat.shiftRight_eq_div_pow, pow_add, Nat.mul_div_mul_right _ _ hpos]
    have hrem : n * 2 ^ t - (n >>> (k + 1)) <<< (k + 1 + t) = (n - (n >>> (k + 1)) <<< (k + 1)) * 2 ^ t := by
      rw [Nat.shiftLeft_eq, Nat.shiftLeft_eq, Nat.sub_mul, pow_add, mul_assoc]
    have hhalf : 1 <<< (k + 1 + t - 1) = 1 <<< (k + 1 - 1) * 2 ^ t := by
      rw [Nat.shiftLeft_eq, Nat.shiftLeft_eq, one_mul, one_mul, ← pow_add]
      congr 1
      omega
    simp only [hquot, hrem, hhalf, Nat.mul_lt_mul_right hpos, Nat.mul_left_inj hpos.ne']

/-- Of the multiples of a power of two, a rounded quotient gives a nearest one. -/
theorem abs_roundShift_sub_le (n s : ℕ) (c : ℤ) : |(roundShift n s : ℤ) * 2 ^ s - n| ≤ |c * 2 ^ s - n| := by
  have hnear := two_mul_abs_roundShift_sub n s
  obtain rfl | hne := eq_or_ne c (roundShift n s)
  · exact le_rfl
  · have hpow : (0 : ℤ) < 2 ^ s := by positivity
    have hgap : 1 * 2 ^ s ≤ |c - roundShift n s| * 2 ^ s :=
      mul_le_mul_of_nonneg_right (Int.one_le_abs (sub_ne_zero.2 hne)) hpow.le
    have htri := abs_sub_le (c * 2 ^ s) n (roundShift n s * 2 ^ s)
    rw [← sub_mul, abs_mul, abs_of_pos hpow, abs_sub_comm (n : ℤ)] at htri
    linarith

/-! ### Numbers of the precision -/

/-- A real number that has a significand of at most `p` bits. -/
structure Representable (p : ℕ) (r : ℝ) : Prop where
  /-- The significand and the exponent. -/
  exists_significand : ∃ k f : ℤ, |k| ≤ 2 ^ p ∧ r = k * 2 ^ f

namespace Representable

variable {p : ℕ} {r s : ℝ}

theorem neg (h : Representable p r) : Representable p (-r) := by
  obtain ⟨k, f, hk, rfl⟩ := h
  exact ⟨-k, f, by rwa [abs_neg], by push_cast; ring⟩

theorem mul_two_zpow (h : Representable p r) (t : ℤ) : Representable p (r * 2 ^ t) := by
  obtain ⟨k, f, hk, rfl⟩ := h
  exact ⟨k, f + t, hk, by rw [zpow_add₀ two_ne_zero, mul_assoc]⟩

theorem zero : Representable p 0 := ⟨0, 0, by positivity, by simp⟩

theorem one : Representable p 1 := ⟨1, 0, by rw [abs_one]; exact one_le_pow₀ one_le_two, by simp⟩

theorem two_zpow (e : ℤ) : Representable p (2 ^ e) := by
  have := (one (p := p)).mul_two_zpow e
  rwa [one_mul] at this

/-- Different multiples of a unit are at least this unit apart. -/
theorem two_zpow_le_abs_sub {c d e : ℤ} (hne : (c : ℝ) * 2 ^ e ≠ d * 2 ^ e) :
    (2 : ℝ) ^ e ≤ |(c : ℝ) * 2 ^ e - d * 2 ^ e| := by
  have hcd : c - d ≠ 0 := fun h => hne (by rw [sub_eq_zero.1 h])
  rw [← sub_mul, abs_mul, abs_zpow, abs_two]
  exact le_mul_of_one_le_left (by positivity) (by exact_mod_cast Int.one_le_abs hcd)

/-- Whatever the unit is, a number of the precision is a multiple of it or has one bit less in it. -/
theorem multiple_or_small (hp : 1 ≤ p) (h : Representable p r) (e : ℤ) :
    (∃ c : ℤ, r = c * 2 ^ e) ∨ |r| ≤ 2 ^ (p - 1) * 2 ^ e := by
  obtain ⟨k, f, hk, rfl⟩ := h
  have hk' : |(k : ℝ)| ≤ 2 ^ p := by exact_mod_cast hk
  rcases le_or_gt e f with hef | hfe
  · left
    obtain ⟨d, rfl⟩ : ∃ d : ℕ, f = e + d := ⟨(f - e).toNat, by omega⟩
    refine ⟨k * 2 ^ d, ?_⟩
    rw [zpow_add₀ two_ne_zero, zpow_natCast]
    push_cast
    ring
  · right
    rw [abs_mul, abs_zpow, abs_two]
    calc |(k : ℝ)| * 2 ^ f ≤ 2 ^ p * 2 ^ (e - 1) :=
          mul_le_mul hk' (zpow_le_zpow_right₀ one_le_two (by omega)) (by positivity) (by positivity)
      _ = 2 ^ (p - 1) * 2 ^ e := by
        rw [zpow_sub_one₀ two_ne_zero, ← Nat.sub_add_cancel hp, pow_succ, Nat.add_sub_cancel]
        ring

/-- Different numbers of the precision are not too near each other. -/
theorem abs_le_abs_sub_mul (hp : 1 ≤ p) (hr : Representable p r) (hs : Representable p s) (hne : r ≠ s) :
    |r| ≤ |r - s| * 2 ^ p := by
  rcases eq_or_ne r 0 with rfl | hr0
  · rw [abs_zero]
    positivity
  obtain ⟨n, hlow, hhigh⟩ := exists_mem_Ioc_zpow (abs_pos.2 hr0) (one_lt_two (α := ℝ))
  -- the unit in which the first number has exactly the bits of the precision
  obtain ⟨e, he⟩ : ∃ e : ℤ, n = (p - 1 : ℕ) + e := ⟨n - (p - 1 : ℕ), by ring⟩
  have hbelow : (2 : ℝ) ^ n = 2 ^ (p - 1) * 2 ^ e := by rw [he, zpow_add₀ two_ne_zero, zpow_natCast]
  have habove : (2 : ℝ) ^ (n + 1) = 2 ^ e * 2 ^ p := by
    rw [zpow_add_one₀ two_ne_zero, hbelow, mul_right_comm, ← pow_succ, Nat.sub_add_cancel hp, mul_comm]
  obtain ⟨c, rfl⟩ := (hr.multiple_or_small hp e).resolve_right (by rw [← hbelow]; exact hlow.not_ge)
  have hunit : (2 : ℝ) ^ e ≤ |(c : ℝ) * 2 ^ e - s| := by
    rcases hs.multiple_or_small hp e with ⟨d, rfl⟩ | hsmall
    · exact two_zpow_le_abs_sub hne
    · -- the bound for the second number is a multiple of the unit as well
      have habs : |(c : ℝ) * 2 ^ e| = (|c| : ℤ) * 2 ^ e := by rw [abs_mul, abs_zpow, abs_two, Int.cast_abs]
      have hbound : (2 : ℝ) ^ (p - 1) * 2 ^ e = (2 ^ (p - 1) : ℤ) * 2 ^ e := by push_cast; ring
      have hgap := two_zpow_le_abs_sub (c := |c|) (d := 2 ^ (p - 1)) (e := e)
        (by rw [← habs, ← hbound, ← hbelow]; exact hlow.ne')
      rw [← habs, ← hbound, abs_of_nonneg (by rw [← hbelow]; exact (sub_pos.2 hlow).le)] at hgap
      exact hgap.trans ((sub_le_sub_left hsmall _).trans (abs_sub_abs_le_abs_sub _ _))
  calc |(c : ℝ) * 2 ^ e| ≤ 2 ^ e * 2 ^ p := habove ▸ hhigh
    _ ≤ |(c : ℝ) * 2 ^ e - s| * 2 ^ p := mul_le_mul_of_nonneg_right hunit (by positivity)

end Representable

/-- A rounding of a real number gives this number. -/
structure Rounds (p : ℕ) (v r : ℝ) : Prop where
  /-- A significand of any length and an exponent that stand for the real number. -/
  exists_round : ∃ m e : ℤ, v = m * 2 ^ e ∧ r = (Approx.round p m e).toReal

namespace Rounds

open Approx

variable {p : ℕ} {v w r s z : ℝ}

theorem round (m e : ℤ) : Rounds p (m * 2 ^ e) (Approx.round p m e).toReal := ⟨m, e, rfl, rfl⟩

theorem error (h : Rounds p v r) : |r - v| ≤ ulp p / 2 * |v| := by
  obtain ⟨m, e, rfl, rfl⟩ := h
  exact abs_toReal_round_sub_le_half m e

/-- A significand that is too long is replaced by a rounded quotient with its sign. -/
theorem toReal_round_of_lt {m : ℤ} (h : p < bitLength m.natAbs) (e : ℤ) : (Approx.round p m e).toReal =
    (if m < 0 then -1 else 1) * (roundShift m.natAbs (bitLength m.natAbs - p) * 2 ^ (bitLength m.natAbs - p)) * 2 ^ e := by
  rw [Approx.round]
  dsimp only
  rw [if_neg (by omega), if_neg (by omega), toReal_mk, zpow_add₀ two_ne_zero, zpow_natCast]
  split <;> push_cast <;> ring

theorem representable (h : Rounds p v r) : Representable p r := by
  obtain ⟨m, e, rfl, rfl⟩ := h
  rcases le_or_gt (bitLength m.natAbs) p with hle | hlt
  · rw [round_of_bitLength_le e hle]
    refine ⟨m, e, ?_, rfl⟩
    rw [Int.abs_eq_natAbs]
    exact_mod_cast (lt_two_pow_bitLength m.natAbs).le.trans (Nat.pow_le_pow_right (by norm_num) hle)
  · rw [toReal_round_of_lt hlt]
    set n := m.natAbs with hn
    obtain ⟨t, ht⟩ : ∃ t, bitLength n = p + t := ⟨bitLength n - p, by omega⟩
    rw [ht, Nat.add_sub_cancel_left]
    -- the quotient is at most the power that bounds it
    have hquot : (roundShift n t : ℤ) ≤ 2 ^ p := by
      have hnear := abs_roundShift_sub_le n t (2 ^ p)
      have hlen : (n : ℤ) < 2 ^ p * 2 ^ t := by
        rw [← pow_add, ← ht]
        exact_mod_cast lt_two_pow_bitLength n
      rw [abs_of_pos (sub_pos.2 hlen)] at hnear
      have hpow : (0 : ℤ) < 2 ^ t := by positivity
      have := (abs_le.1 hnear).2
      exact le_of_mul_le_mul_right (by linarith) hpow
    refine ⟨(if m < 0 then -1 else 1) * roundShift n t, t + e, ?_, ?_⟩
    · rw [abs_mul, Nat.abs_cast]
      split <;> simpa using hquot
    · rw [zpow_add₀ two_ne_zero, zpow_natCast]
      split <;> push_cast <;> ring

/-- A rounding gives a nearest number of the precision. -/
theorem nearest (hp : 1 ≤ p) (h : Rounds p v r) (hz : Representable p z) : |r - v| ≤ |z - v| := by
  obtain ⟨m, e, rfl, rfl⟩ := h
  rcases le_or_gt (bitLength m.natAbs) p with hle | hlt
  · rw [round_of_bitLength_le e hle, sub_self, abs_zero]
    exact abs_nonneg _
  · rw [toReal_round_of_lt hlt, cast_eq_sign_mul_natAbs m]
    set n := m.natAbs with hn
    set sign : ℝ := if m < 0 then -1 else 1 with hsign
    have hsq : sign * sign = 1 := by rw [hsign]; split <;> norm_num
    have habs : |sign| = 1 := by rw [hsign]; split <;> norm_num
    obtain ⟨t, ht⟩ : ∃ t, bitLength n = p + t := ⟨bitLength n - p, by omega⟩
    rw [ht, Nat.add_sub_cancel_left]
    have hpow : (0 : ℝ) < 2 ^ e := by positivity
    -- the candidate in units of the significand, with the sign of the significand
    obtain ⟨y, hy, rfl⟩ : ∃ y, Representable p y ∧ sign * y * 2 ^ e = z := by
      refine ⟨sign * (z * 2 ^ (-e)), ?_, ?_⟩
      · have := hz.mul_two_zpow (-e)
        rw [hsign]
        split
        · rw [neg_one_mul]
          exact this.neg
        · rwa [one_mul]
      · rw [← mul_assoc, ← mul_assoc, hsq, one_mul, mul_assoc, ← zpow_add₀ two_ne_zero, neg_add_cancel, zpow_zero,
          mul_one]
    rw [← sub_mul, ← sub_mul, ← mul_sub, ← mul_sub, abs_mul, abs_mul (sign * _), abs_mul, abs_mul, habs, one_mul, one_mul]
    refine mul_le_mul_of_nonneg_right ?_ (abs_nonneg _)
    have hmultiple (c : ℤ) : |(roundShift n t : ℝ) * 2 ^ t - n| ≤ |(c : ℝ) * 2 ^ t - n| := by
      exact_mod_cast abs_roundShift_sub_le n t c
    rcases hy.multiple_or_small hp t with ⟨c, rfl⟩ | hfine
    · rw [zpow_natCast]
      exact hmultiple c
    · -- a finer number is below the least significand of that length, which is a multiple as well
      rw [zpow_natCast] at hfine
      have hlow : (2 : ℝ) ^ (p - 1) * 2 ^ t ≤ n := by
        rw [← pow_add]
        exact_mod_cast two_pow_le_of_bitLength (by omega)
      have hat := hmultiple (2 ^ (p - 1))
      push_cast at hat
      rw [abs_of_nonpos (sub_nonpos.2 hlow)] at hat
      refine hat.trans ?_
      rw [abs_sub_comm]
      exact le_trans (by linarith [le_abs_self y]) (le_abs_self _)

theorem eq_of_representable (hp : 1 ≤ p) (h : Rounds p v r) (hv : Representable p v) : r = v := by
  have := h.nearest hp hv
  rw [sub_self, abs_zero] at this
  exact sub_eq_zero.1 (abs_nonpos_iff.1 this)

/-- What lies very near a number of the precision is rounded to it. -/
theorem eq_of_near (hp : 1 ≤ p) (h : Rounds p v r) (hz : Representable p z) (hnear : |z - v| * 2 ^ (p + 1) < |z|) :
    r = z := by
  by_contra hne
  have hgap := hz.abs_le_abs_sub_mul hp h.representable (Ne.symm hne)
  have htri := abs_sub_le z v r
  rw [abs_sub_comm v r] at htri
  have hle := h.nearest hp hz
  have hpow : (0 : ℝ) < 2 ^ p := by positivity
  rw [pow_succ] at hnear
  nlinarith

theorem toReal_round_mul_two_pow (hp : 1 ≤ p) (m e : ℤ) (t : ℕ) :
    (Approx.round p (m * 2 ^ t) e).toReal = (Approx.round p m (e + t)).toReal := by
  have hpow : (0 : ℤ) < 2 ^ t := by positivity
  have hvalue : ((m * 2 ^ t : ℤ) : ℝ) * 2 ^ e = m * 2 ^ (e + (t : ℤ)) := by
    rw [zpow_add₀ two_ne_zero, zpow_natCast]
    push_cast
    ring
  rcases le_or_gt (bitLength m.natAbs) p with hle | hlt
  · have hrep : Representable p (m * 2 ^ (e + (t : ℤ))) := by
      have := (round (p := p) m (e + t)).representable
      rwa [round_of_bitLength_le _ hle] at this
    rw [round_of_bitLength_le _ hle, (round (m * 2 ^ t) e).eq_of_representable hp (hvalue ▸ hrep), hvalue]
  · have hm : m.natAbs ≠ 0 := fun h0 => by rw [h0, bitLength_zero] at hlt; omega
    have hnat : (m * 2 ^ t).natAbs = m.natAbs * 2 ^ t := by rw [Int.natAbs_mul, Int.natAbs_pow]; rfl
    have hlen := bitLength_mul_two_pow hm t
    obtain ⟨s, hs⟩ : ∃ s, bitLength m.natAbs = p + s := ⟨bitLength m.natAbs - p, by omega⟩
    rw [toReal_round_of_lt (by rw [hnat, hlen]; omega), toReal_round_of_lt hlt, hnat, hlen, hs,
      show p + s + t - p = s + t by omega, Nat.add_sub_cancel_left, roundShift_mul_two_pow, zpow_add₀ two_ne_zero,
      zpow_natCast, pow_add]
    have hsign : m * 2 ^ t < 0 ↔ m < 0 :=
      ⟨fun h => neg_of_mul_neg_left h hpow.le, fun h => mul_neg_of_neg_of_pos h hpow⟩
    simp only [hsign]
    ring

/-- A rounding depends on the number only. -/
theorem unique (hp : 1 ≤ p) (h : Rounds p v r) (h' : Rounds p v s) : r = s := by
  obtain ⟨m, e, rfl, rfl⟩ := h
  obtain ⟨m', e', hv, rfl⟩ := h'
  wlog hle : e ≤ e' generalizing m e m' e'
  · exact (this m' e' m e hv.symm (by omega)).symm
  obtain ⟨t, rfl⟩ : ∃ t : ℕ, e' = e + t := ⟨(e' - e).toNat, by omega⟩
  have hm : m = m' * 2 ^ t := by
    rw [zpow_add₀ two_ne_zero, mul_comm ((2 : ℝ) ^ e), ← mul_assoc, mul_left_inj' (by positivity), zpow_natCast] at hv
    exact_mod_cast hv
  rw [hm, toReal_round_mul_two_pow hp]

theorem mono (hp : 1 ≤ p) (h : Rounds p v r) (h' : Rounds p w s) (hvw : v ≤ w) : r ≤ s := by
  rcases hvw.lt_or_eq with hlt | rfl
  · by_contra hgt
    have h₁ := h.nearest hp h'.representable
    have h₂ := h'.nearest hp h.representable
    -- the two midpoint conditions contradict the order
    rw [← sq_le_sq] at h₁ h₂
    nlinarith
  · exact (h.unique hp h').le

theorem zero : Rounds p 0 0 := ⟨0, 0, by simp, by rw [round_of_bitLength_le 0 (by simp)]; simp⟩

theorem nonneg (hp : 1 ≤ p) (h : Rounds p v r) (hv : 0 ≤ v) : 0 ≤ r := zero.mono hp h hv

theorem nonpos (hp : 1 ≤ p) (h : Rounds p v r) (hv : v ≤ 0) : r ≤ 0 := h.mono hp zero hv

theorem mul_two_zpow (h : Rounds p v r) (t : ℤ) : Rounds p (v * 2 ^ t) (r * 2 ^ t) := by
  obtain ⟨m, e, rfl, rfl⟩ := h
  refine ⟨m, e + t, by rw [zpow_add₀ two_ne_zero, mul_assoc], ?_⟩
  rcases le_or_gt (bitLength m.natAbs) p with hle | hlt
  · rw [round_of_bitLength_le e hle, round_of_bitLength_le _ hle, zpow_add₀ two_ne_zero, mul_assoc]
  · rw [toReal_round_of_lt hlt, toReal_round_of_lt hlt, zpow_add₀ two_ne_zero, mul_assoc _ ((2 : ℝ) ^ e)]

end Rounds

/-! ### Operations as roundings -/

namespace Approx

variable {p : ℕ}

/-- A number that has a significand of at most `p` bits. -/
def Fits (x : Approx p) : Prop := Representable p x.toReal

theorem Fits.neg {x : Approx p} (h : x.Fits) : (-x).Fits := by
  rw [Fits, toReal_neg]
  exact Representable.neg h

theorem Fits.shift {x : Approx p} (h : x.Fits) (e : ℤ) : (x.shift e).Fits := by
  rw [Fits, toReal_shift]
  exact h.mul_two_zpow e

theorem rounds_ofInt (n : ℤ) : Rounds p n (ofInt n : Approx p).toReal := ⟨n, 0, by simp, rfl⟩

theorem toReal_ofInt (hp : 1 ≤ p) {n : ℤ} (h : Representable p n) : (ofInt n : Approx p).toReal = n :=
  (rounds_ofInt n).eq_of_representable hp h

theorem rounds_mul (x y : Approx p) : Rounds p (x.toReal * y.toReal) (x * y).toReal := by
  refine ⟨x.mant * y.mant, x.exp + y.exp, ?_, rfl⟩
  rw [toReal_eq, toReal_eq, zpow_add₀ two_ne_zero]
  push_cast
  ring

theorem rounds_addOrdered (hp : 1 ≤ p) {x y : Approx p} (hfits : x.Fits) (hx : x.mant ≠ 0) (hy : y.mant ≠ 0)
    (h : y.exp ≤ x.exp) : Rounds p (x.toReal + y.toReal) (addOrdered x y).toReal := by
  obtain ⟨d, hd⟩ : ∃ d : ℕ, x.exp = y.exp + d := ⟨(x.exp - y.exp).toNat, by omega⟩
  have hexact : Rounds p (x.toReal + y.toReal) (round p (x.mant * (2 ^ d : ℕ) + y.mant) y.exp).toReal := by
    refine ⟨_, _, ?_, rfl⟩
    rw [toReal_eq, toReal_eq, hd, zpow_add₀ two_ne_zero, zpow_natCast]
    push_cast
    ring
  rw [addOrdered]
  split
  · next hgap =>
    -- Both the exact sum and the number that is rounded in its place are so near the first summand that they
    -- are rounded to it.
    obtain ⟨hsmall, hlarge, hvalue⟩ := wide_gap hx hgap rfl
    set e := x.exp - (p + 2 : ℕ)
    rw [pow_succ] at hlarge
    have hpos : (0 : ℝ) < 2 ^ (p + 1) := by positivity
    have hpos' : (0 : ℝ) < 2 ^ e := by positivity
    have hsign : |(y.mant.sign : ℝ)| = 1 := by
      rw [← Int.cast_abs, Int.abs_sign_of_ne_zero hy, Int.cast_one]
    have hstand : (round p (x.mant * (twoPow (p + 2) : ℕ) + y.mant.sign) e).toReal = x.toReal := by
      refine (Rounds.round _ _).eq_of_near hp hfits ?_
      rw [hvalue, ← sub_sub, sub_self, zero_sub, abs_neg, abs_mul, hsign, one_mul, abs_zpow, abs_two]
      nlinarith
    have hsum := hexact.eq_of_near hp hfits (by
      rw [← sub_sub, sub_self, zero_sub, abs_neg]
      nlinarith)
    rw [hstand]
    exact hsum ▸ hexact
  · rwa [show (x.exp - y.exp).toNat = d by omega, twoPow_eq]

theorem rounds_of_fits (hp : 1 ≤ p) {x : Approx p} (h : x.Fits) : Rounds p x.toReal x.toReal := by
  have hround := Rounds.round (p := p) x.mant x.exp
  rw [← toReal_eq] at hround
  rwa [hround.eq_of_representable hp h] at hround

theorem rounds_add (hp : 1 ≤ p) {x y : Approx p} (hx : x.Fits) (hy : y.Fits) :
    Rounds p (x.toReal + y.toReal) (x + y).toReal := by
  change Rounds p _ (add x y).toReal
  rw [add]
  split
  · next h =>
    rw [(toReal_eq_zero_iff x).2 h, zero_add]
    exact rounds_of_fits hp hy
  · next h =>
    split
    · next h' =>
      rw [(toReal_eq_zero_iff y).2 h', add_zero]
      exact rounds_of_fits hp hx
    · next h' =>
      split
      · next hle => exact rounds_addOrdered hp hx h h' hle
      · next hlt =>
        rw [add_comm x.toReal]
        exact rounds_addOrdered hp hy h' h (by omega)

theorem rounds_sub (hp : 1 ≤ p) {x y : Approx p} (hx : x.Fits) (hy : y.Fits) :
    Rounds p (x.toReal - y.toReal) (x - y).toReal := by
  have := rounds_add hp hx hy.neg
  rwa [toReal_neg, ← sub_eq_add_neg] at this

theorem fits_ofInt (n : ℤ) : (ofInt n : Approx p).Fits := (rounds_ofInt n).representable

theorem fits_mul (x y : Approx p) : (x * y).Fits := (rounds_mul x y).representable

end Approx

end CliffordT

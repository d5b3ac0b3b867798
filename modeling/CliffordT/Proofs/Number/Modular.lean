import Mathlib
import CliffordT.Number.Modular

/-!
Square roots modulo an odd prime.

Powers by squaring are powers, so the residue symbol is the criterion of Euler. The descent of Tonelli and Shanks keeps
`r² = a t`, a `c` whose order is `2 ^ m`, and a `t` whose order is a smaller power of two; when `t` is one, `r` is a
square root. For a square every step succeeds.
-/

namespace CliffordT.Modular

theorem pow_eq (n b e : ℕ) : pow n b e = b ^ e % n := by
  induction e using Nat.strong_induction_on generalizing b with
  | _ e ih =>
    rw [pow]
    split
    · next h => rw [h, pow_zero]
    · next h =>
      have hhalf : pow n (b * b % n) (e / 2) = (b * b) ^ (e / 2) % n := by
        rw [ih _ (by omega), ← Nat.pow_mod]
      have hsplit : b ^ e = b ^ (e % 2) * (b * b) ^ (e / 2) := by
        rw [← pow_two, ← pow_mul, ← pow_add, Nat.mod_add_div]
      rw [hhalf, hsplit]
      obtain hodd | heven := Nat.mod_two_eq_zero_or_one e
      · simp [hodd]
      · simp [heven, Nat.mul_mod]

theorem splitTwos_spec {m : ℕ} (hm : 0 < m) :
    m = 2 ^ (splitTwos m).1 * (splitTwos m).2 ∧ (splitTwos m).2 % 2 = 1 := by
  induction m using Nat.strong_induction_on with
  | _ m ih =>
    rw [splitTwos]
    split
    · next h => exact ⟨by simp, by omega⟩
    · next h =>
      obtain ⟨heq, hodd⟩ := ih (m / 2) (by omega) (by omega)
      refine ⟨?_, hodd⟩
      dsimp only
      rw [pow_succ', mul_assoc, ← heq]
      omega

variable {p : ℕ}

theorem cast_pow (b e : ℕ) : ((pow p b e : ℕ) : ZMod p) = (b : ZMod p) ^ e := by
  rw [pow_eq, ZMod.natCast_mod, Nat.cast_pow]

theorem cast_eq_one_iff (hp : 1 < p) {t : ℕ} (ht : t < p) : (t : ZMod p) = 1 ↔ t = 1 := by
  rw [← Nat.cast_one, ZMod.natCast_eq_natCast_iff', Nat.mod_eq_of_lt ht, Nat.mod_eq_of_lt hp]

/-! ### Residues modulo a prime -/

variable [Fact p.Prime]

theorem pow_lt (b e : ℕ) : pow p b e < p := by
  rw [pow_eq]
  exact Nat.mod_lt _ (Fact.out : p.Prime).pos

/-- The residue symbol of a number prime to an odd prime is one for squares and minus one for the others. -/
theorem residueSymbol_eq (hp2 : p ≠ 2) {a : ℕ} (ha : (a : ZMod p) ≠ 0) :
    (IsSquare (a : ZMod p) → residueSymbol a p = 1) ∧ (¬IsSquare (a : ZMod p) → residueSymbol a p = -1) := by
  have hodd := (Fact.out : p.Prime).eq_two_or_odd.resolve_left hp2
  have hzero : a ≠ 0 := by
    rintro rfl
    exact ha Nat.cast_zero
  have hiff : pow p a ((p - 1) / 2) = 1 ↔ IsSquare (a : ZMod p) := by
    rw [← cast_eq_one_iff (Fact.out : p.Prime).one_lt (pow_lt _ _), cast_pow, ZMod.euler_criterion p ha,
      show (p - 1) / 2 = p / 2 by omega]
  rw [residueSymbol, if_neg hzero]
  refine ⟨fun h => if_pos (hiff.2 h), fun h => if_neg (mt hiff.1 h)⟩

omit [Fact p.Prime] in
theorem nonResidueFrom_spec {z limit : ℕ} (h : ∃ y, z ≤ y ∧ y < z + limit ∧ residueSymbol (y % p) p = -1) :
    ∃ y, nonResidueFrom p z limit = some y ∧ residueSymbol (y % p) p = -1 := by
  induction limit generalizing z with
  | zero =>
    obtain ⟨y, hlow, hhigh, -⟩ := h
    omega
  | succ limit ih =>
    by_cases hz : residueSymbol (z % p) p = -1
    · exact ⟨z, by rw [nonResidueFrom, if_pos hz], hz⟩
    · rw [nonResidueFrom, if_neg hz]
      obtain ⟨y, hlow, hhigh, hy⟩ := h
      have hne : y ≠ z := by
        rintro rfl
        exact hz hy
      exact ih ⟨y, by omega, by omega, hy⟩

/-- Among the numbers from two to an odd prime there is one whose power is minus one. -/
theorem exists_nonResidue (hp2 : p ≠ 2) :
    ∃ z, nonResidueFrom p 2 p = some z ∧ (z : ZMod p) ^ (p / 2) = -1 := by
  have hp := (Fact.out : p.Prime).two_le
  obtain ⟨x, hx⟩ := FiniteField.exists_nonsquare (F := ZMod p) (by rwa [ZMod.ringChar_zmod_n])
  have hsymbol {y : ℕ} (hy : residueSymbol (y % p) p = -1) : (y : ZMod p) ^ (p / 2) = -1 := by
    have hne : (y : ZMod p) ≠ 0 := by
      intro h0
      rw [ZMod.natCast_eq_zero_iff, Nat.dvd_iff_mod_eq_zero] at h0
      rw [h0] at hy
      cases hy
    have hnot : ¬IsSquare (y : ZMod p) := by
      intro hsquare
      have hone := (residueSymbol_eq hp2 (a := y % p) (by rwa [ZMod.natCast_mod])).1 (by rwa [ZMod.natCast_mod])
      rw [hone] at hy
      cases hy
    rw [ZMod.euler_criterion p hne] at hnot
    exact (ZMod.pow_div_two_eq_neg_one_or_one p hne).resolve_left hnot
  have hmem : residueSymbol (x.val % p) p = -1 := by
    have hcast : ((x.val % p : ℕ) : ZMod p) = x := by rw [ZMod.natCast_mod, ZMod.natCast_zmod_val]
    refine (residueSymbol_eq hp2 ?_).2 (by rwa [hcast])
    rw [hcast]
    rintro rfl
    exact hx (IsSquare.zero)
  have hlow : 2 ≤ x.val := by
    by_contra hlt
    obtain h0 | h1 : x.val = 0 ∨ x.val = 1 := by omega
    · rw [(ZMod.val_eq_zero x).1 h0] at hx
      exact hx IsSquare.zero
    · have hx1 : x = 1 := by rw [← ZMod.natCast_zmod_val x, h1, Nat.cast_one]
      rw [hx1] at hx
      exact hx IsSquare.one
  have hhigh : x.val < 2 + p := (ZMod.val_lt x).trans_le (Nat.le_add_left p 2)
  obtain ⟨z, hz, hres⟩ := nonResidueFrom_spec ⟨x.val, hlow, hhigh, hmem⟩
  exact ⟨z, hz, hsymbol hres⟩

/-! ### The descent -/

theorem cast_squareTimes (b k : ℕ) : ((squareTimes p b k : ℕ) : ZMod p) = (b : ZMod p) ^ 2 ^ k := by
  induction k generalizing b with
  | zero => rw [squareTimes, pow_zero, pow_one]
  | succ k ih => rw [squareTimes, ih, ZMod.natCast_mod, Nat.cast_mul, ← pow_two, ← pow_mul, ← pow_succ']

/-- The squarings are counted up to the first that gives one; the last value before it is minus one. -/
theorem squaringsToOne_spec {m t : ℕ} (ht : t < p) (hpow : (t : ZMod p) ^ 2 ^ m = 1) (hne : t ≠ 1) :
    ∃ (i : Fin (m + 1)) (k : ℕ), squaringsToOne p (m + 1) t = some i ∧ i.val = k + 1 ∧
      (t : ZMod p) ^ 2 ^ k = -1 := by
  induction m generalizing t with
  | zero =>
    rw [pow_zero, pow_one, cast_eq_one_iff (Fact.out : p.Prime).one_lt ht] at hpow
    exact absurd hpow hne
  | succ m ih =>
    have hsquare : ((t * t % p : ℕ) : ZMod p) = (t : ZMod p) ^ 2 := by
      rw [ZMod.natCast_mod, Nat.cast_mul, pow_two]
    have hlt : t * t % p < p := Nat.mod_lt _ (Fact.out : p.Prime).pos
    rw [squaringsToOne, if_neg hne]
    by_cases hone : t * t % p = 1
    · have hsq : (t : ZMod p) ^ 2 = 1 := by rw [← hsquare, hone, Nat.cast_one]
      refine ⟨Fin.succ 0, 0, ?_, rfl, ?_⟩
      · rw [squaringsToOne, if_pos hone]
        rfl
      · rw [pow_zero, pow_one]
        exact (sq_eq_one_iff.1 hsq).resolve_left (mt (cast_eq_one_iff (Fact.out : p.Prime).one_lt ht).1 hne)
    · obtain ⟨i, k, hi, hik, hk⟩ := ih hlt (by rwa [hsquare, ← pow_mul, ← pow_succ']) hone
      refine ⟨i.succ, k + 1, by rw [hi]; rfl, by rw [Fin.val_succ, hik], ?_⟩
      rwa [hsquare, ← pow_mul, ← pow_succ'] at hk

/-- The descent ends in a square root. -/
theorem descend_spec {a : ZMod p} {m c t r : ℕ} (ht : t < p) (heq : (r : ZMod p) ^ 2 = a * t)
    (hc : (c : ZMod p) ^ 2 ^ m = -1) (hpow : (t : ZMod p) ^ 2 ^ m = 1) :
    ∃ s, descend p (m + 1) c t r = some s ∧ (s : ZMod p) ^ 2 = a := by
  -- The three hypotheses are the invariant: `r` is a root up to `t`, and the orders of `c` and `t` are powers of two, that of
  -- `t` being the smaller. With each round the order of `t` falls, and `c` is squared until its order is that of the old `t`.
  induction m using Nat.strong_induction_on generalizing c t r with
  | _ m ih =>
    rw [descend]
    by_cases hone : t = 1
    · rw [if_pos hone]
      exact ⟨r, rfl, by rw [heq, hone, Nat.cast_one, mul_one]⟩
    · obtain ⟨i, k, hi, hik, hk⟩ := squaringsToOne_spec ht hpow hone
      have hkm : k < m := by
        have := i.isLt
        omega
      rw [if_neg hone, hi]
      dsimp only
      rw [hik]
      obtain ⟨b, hb⟩ : ∃ b, b = squareTimes p c (m + 1 - (k + 1) - 1) := ⟨_, rfl⟩
      have hbc : (b : ZMod p) ^ 2 ^ (k + 1) = -1 := by
        rw [hb, cast_squareTimes, ← pow_mul, ← pow_add, show m + 1 - (k + 1) - 1 + (k + 1) = m by omega, hc]
      have hsq : ((b * b % p : ℕ) : ZMod p) = (b : ZMod p) ^ 2 := by
        rw [ZMod.natCast_mod, Nat.cast_mul, pow_two]
      rw [← hb]
      refine ih k hkm (Nat.mod_lt _ (Fact.out : p.Prime).pos) ?_ ?_ ?_
      · rw [ZMod.natCast_mod, ZMod.natCast_mod, Nat.cast_mul, Nat.cast_mul, hsq, mul_pow, heq]
        ring
      · rw [hsq, ← pow_mul, ← pow_succ', hbc]
      · rw [ZMod.natCast_mod, Nat.cast_mul, hsq, mul_pow, hk, ← pow_mul, ← pow_succ', hbc]
        ring

/-! ### Square roots -/

theorem sqrtReduced_spec (hp2 : p ≠ 2) {a : ℕ} (h : IsSquare (a : ZMod p)) (ha : (a : ZMod p) ≠ 0) :
    ∃ r, sqrtReduced a p = some r ∧ (r : ZMod p) ^ 2 = a := by
  have hodd := (Fact.out : p.Prime).eq_two_or_odd.resolve_left hp2
  have hp := (Fact.out : p.Prime).two_le
  have hzero : a ≠ 0 := by
    rintro rfl
    exact ha Nat.cast_zero
  have hhalf : (a : ZMod p) ^ (p / 2) = 1 := (ZMod.euler_criterion p ha).1 h
  rw [sqrtReduced, if_neg hzero, if_neg (not_not.2 ((residueSymbol_eq hp2 ha).1 h))]
  by_cases h4 : p % 4 = 3
  · rw [if_pos h4]
    refine ⟨_, rfl, ?_⟩
    rw [cast_pow, ← pow_mul, show (p + 1) / 4 * 2 = p / 2 + 1 by omega, pow_succ, hhalf, one_mul]
  · rw [if_neg h4]
    obtain ⟨heq, hq⟩ := splitTwos_spec (show 0 < p - 1 by omega)
    generalize splitTwos (p - 1) = parts at heq hq ⊢
    obtain ⟨s, q⟩ := parts
    dsimp only at heq hq ⊢
    obtain ⟨z, hz, hneg⟩ := exists_nonResidue hp2
    obtain ⟨s, rfl⟩ : ∃ n, s = n + 1 := by
      refine ⟨s - 1, (Nat.sub_add_cancel ?_).symm⟩
      by_contra hs
      obtain rfl : s = 0 := by omega
      rw [pow_zero, one_mul] at heq
      omega
    have hmul : q * 2 ^ s = p / 2 := by
      rw [pow_succ, mul_comm (2 ^ s), mul_assoc, mul_comm (2 ^ s)] at heq
      omega
    rw [hz]
    refine descend_spec (pow_lt _ _) ?_ ?_ ?_
    · rw [cast_pow, cast_pow, ← pow_mul, show (q + 1) / 2 * 2 = q + 1 by omega, pow_succ, mul_comm]
    · rw [cast_pow, ← pow_mul, hmul, hneg]
    · rw [cast_pow, ← pow_mul, hmul, hhalf]

/-- A square modulo an odd prime has the square root that is computed. -/
theorem sqrt?_spec (hp2 : p ≠ 2) {a : ℤ} (h : IsSquare (a : ZMod p)) :
    ∃ r : ℕ, sqrt? a p = .ok (some r) ∧ (r : ZMod p) ^ 2 = a := by
  have hp := (Fact.out : p.Prime).two_le
  have hmod : a.fmod p = a % p := Int.fmod_eq_emod_of_nonneg a (by omega)
  have hnonneg : 0 ≤ a % p := Int.emod_nonneg a (by omega)
  have hcast : ((a % p).toNat : ZMod p) = a := by
    rw [← Int.cast_natCast, Int.toNat_of_nonneg hnonneg, ZMod.intCast_mod]
  rw [sqrt?, if_neg (by omega), hmod]
  by_cases hzero : a % p = 0
  · rw [if_pos hzero]
    refine ⟨0, rfl, ?_⟩
    rw [← hcast, hzero]
    simp
  · rw [if_neg hzero, if_neg (by omega), Int.toNat_natCast]
    have hne : ((a % p).toNat : ZMod p) ≠ 0 := by
      rw [hcast, Ne, ZMod.intCast_zmod_eq_zero_iff_dvd]
      exact mt Int.emod_eq_zero_of_dvd hzero
    obtain ⟨r, hr, hsq⟩ := sqrtReduced_spec hp2 (by rwa [hcast]) hne
    exact ⟨r, by rw [hr], by rw [hsq, hcast]⟩

end CliffordT.Modular

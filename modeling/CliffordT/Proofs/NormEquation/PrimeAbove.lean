import CliffordT.Proofs.Number.Modular
import CliffordT.Proofs.Ring.Prime
import CliffordT.NormEquation.PrimeAbove

/-!
The primes above a rational prime are found.

A square root modulo the prime gives a number whose product with its conjugate is divisible by the prime while their
difference is not. The greatest common divisor of the two is then neither a unit nor the prime itself, and
its norm can only be the one that is checked.
-/

namespace CliffordT

/-- The norm of a proper divisor of an element whose norm is the square of a prime. -/
theorem QuadInt.natAbs_norm_of_proper {p : ℕ} (hp : p.Prime) {d g : QuadInt} (hd : d.norm.natAbs = p ^ 2)
    (hg : g ∣ d) (hunit : ¬IsUnit g) (hnot : ¬d ∣ g) : g.norm.natAbs = p := by
  obtain ⟨z, rfl⟩ := hg
  rw [norm_mul, Int.natAbs_mul] at hd
  obtain ⟨k, hk, hgk⟩ := (Nat.dvd_prime_pow hp).1 (Dvd.intro _ hd)
  rw [isUnit_iff, hgk] at hunit
  interval_cases k
  · exact absurd (pow_zero p) hunit
  · rw [hgk, pow_one]
  · rw [hgk] at hd
    have hz : IsUnit z := (isUnit_iff z).2 (Nat.eq_of_mul_eq_mul_left (pow_pos hp.pos 2) (by rw [hd, mul_one]))
    exact absurd (hz.mul_right_dvd.2 dvd_rfl) hnot

namespace CycloInt

theorem norm_of_proper {p k : ℕ} (hp : p.Prime) {d g : CycloInt} (hd : d.norm = (p : ℤ) ^ k) (hg : g ∣ d)
    (hunit : ¬IsUnit g) (hnot : ¬d ∣ g) : ∃ i, 0 < i ∧ i < k ∧ g.norm = (p : ℤ) ^ i := by
  obtain ⟨z, rfl⟩ := hg
  obtain ⟨m, hm⟩ := Int.eq_ofNat_of_zero_le (norm_nonneg g)
  obtain ⟨n, hn⟩ := Int.eq_ofNat_of_zero_le (norm_nonneg z)
  rw [norm_mul, hm, hn] at hd
  have hmn : m * n = p ^ k := by exact_mod_cast hd
  obtain ⟨i, hi, rfl⟩ := (Nat.dvd_prime_pow hp).1 (Dvd.intro _ hmn)
  refine ⟨i, Nat.pos_of_ne_zero ?_, lt_of_le_of_ne hi ?_, by rw [hm]; push_cast; rfl⟩
  · rintro rfl
    exact hunit ((isUnit_iff g).2 (by rw [hm, pow_zero]; rfl))
  · rintro rfl
    have hone : n = 1 := Nat.eq_of_mul_eq_mul_left (pow_pos hp.pos i) (by rw [hmn, mul_one])
    have hz : IsUnit z := (isUnit_iff z).2 (by rw [hn, hone]; rfl)
    exact hnot (hz.mul_right_dvd.2 dvd_rfl)

theorem gcdOfNorm_eq {a b : CycloInt} {n : ℤ} (h : (a.gcd b).norm = n) : gcdOfNorm a b n = .ok (a.gcd b) := by
  rw [gcdOfNorm, List.find?_cons_of_pos (by rw [h]; exact decide_eq_true rfl)]

end CycloInt

namespace PrimeAbove

open CycloInt

variable {p : ℕ}

theorem root_spec (hp : p.Prime) (hp2 : p ≠ 2) {a : ℤ} (ha : IsSquare (a : ZMod p)) (absent : Breach) :
    ∃ r : ℕ, root a p absent = .ok r ∧ (p : ℤ) ∣ (r : ℤ) ^ 2 - a := by
  have := Fact.mk hp
  obtain ⟨r, hr, hsq⟩ := Modular.sqrt?_spec hp2 ha
  refine ⟨r, by rw [root, hr]; rfl, ?_⟩
  rw [← ZMod.intCast_zmod_eq_zero_iff_dvd]
  push_cast
  rw [hsq, sub_self]

/-- A prime that is 1 or 7 modulo eight splits in `ℤ[√2]`. -/
theorem quad_spec (hp : p.Prime) (h8 : p % 8 = 1 ∨ p % 8 = 7) :
    ∃ eta, quad p = .ok eta ∧ eta.norm.natAbs = p := by
  have := Fact.mk hp
  have hp2 : p ≠ 2 := by omega
  obtain ⟨r, hr, k, hk⟩ := root_spec hp hp2 (a := 2)
    (by rw [Int.cast_ofNat]; exact (ZMod.exists_sq_eq_two_iff hp2).2 h8) (.noRootOfTwo p)
  have hproper := LawfulDivision.gcd_proper QuadInt.bulletHom QuadInt.bullet_bullet
    (d := (p : QuadInt)) (w := ⟨r, 1⟩) (by ext <;> simp) ?_ ?_
  · have hnorm := QuadInt.natAbs_norm_of_proper hp (by rw [QuadInt.norm_natCast, Int.natAbs_pow, Int.natAbs_natCast])
      (LawfulDivision.gcd_dvd_left _ _) hproper.1 hproper.2
    refine ⟨_, ?_, hnorm⟩
    simp only [quad, hr, bind, Except.bind]
    exact if_pos hnorm
  · rw [QuadInt.bulletHom_apply, QuadInt.mul_bullet]
    refine ⟨(k : QuadInt), ?_⟩
    rw [QuadInt.norm, show (r : ℤ) * r - 2 * (1 * 1) = p * k by rw [← hk]; ring]
    push_cast
    rfl
  · rw [QuadInt.natCast_dvd_iff]
    rintro ⟨-, hb⟩
    have h2 : (p : ℤ) ∣ 2 := by simpa using hb
    exact hp2 ((Nat.prime_dvd_prime_iff_eq hp Nat.prime_two).1 (by exact_mod_cast h2))

/-- An odd prime divides no number whose norm is a power of two. -/
theorem not_dvd_of_norm (hp : p.Prime) (hp2 : p ≠ 2) {d x : CycloInt} {k n : ℕ} (hk : k ≠ 0)
    (hd : d.norm = (p : ℤ) ^ k) (hx : x.norm = 2 ^ n) : ¬d ∣ x := by
  intro h
  have hnorm := norm_dvd h
  rw [hd, hx] at hnorm
  have hdvd : p ∣ 2 ^ n := by exact_mod_cast (dvd_pow_self (p : ℤ) hk).trans hnorm
  exact hp2 ((Nat.prime_dvd_prime_iff_eq hp Nat.prime_two).1 (hp.dvd_of_dvd_pow hdvd))

theorem norm_natCast (p : ℕ) : (p : CycloInt).norm = (p : ℤ) ^ 4 := by
  rw [← map_natCast ofQuadHom, ofQuadHom_apply, norm_ofQuad, QuadInt.norm_natCast, ← pow_mul]

/-- A divisor of an inert prime that is neither a unit nor the prime has the square of the prime for its norm. -/
theorem inert_of_proper (hp : p.Prime) (h8 : p % 8 = 3 ∨ p % 8 = 5) {g : CycloInt} (hg : g ∣ (p : CycloInt))
    (hunit : ¬IsUnit g) (hnot : ¬(p : CycloInt) ∣ g) : g.norm = (p : ℤ) * p ∧ g.absSq ∣ (p : QuadInt) := by
  obtain ⟨i, hi0, hi4, hi⟩ := norm_of_proper hp (norm_natCast p) hg hunit hnot
  have hdvd := QuadInt.natCast_pow_dvd_of_norm hp h8 (x := g.absSq) (e := i) (by rw [← hi, CycloInt.norm])
  have hle : 2 * ((i + 1) / 2) ≤ i := by
    have hnorm := QuadInt.norm_dvd hdvd
    rw [QuadInt.norm_pow, QuadInt.norm_natCast, ← pow_mul, ← CycloInt.norm, hi] at hnorm
    exact (Nat.pow_dvd_pow_iff_le_right hp.one_lt).1 (by exact_mod_cast hnorm)
  obtain rfl : i = 2 := by omega
  refine ⟨by rw [hi, pow_two], ?_⟩
  obtain ⟨y, hy⟩ := hdvd
  rw [show (2 + 1) / 2 = 1 from rfl, pow_one] at hy
  have hynorm : y.norm = 1 := by
    rw [CycloInt.norm, hy, QuadInt.norm_mul, QuadInt.norm_natCast] at hi
    exact mul_left_cancel₀ (pow_ne_zero 2 (Int.natCast_ne_zero.2 hp.ne_zero)) (by rw [hi, mul_one])
  rw [hy]
  exact ((QuadInt.isUnit_iff y).2 (by rw [hynorm]; rfl)).mul_right_dvd.2 dvd_rfl

theorem dvd_of_dvd_intCast {d : CycloInt} (hd : d ∣ (p : CycloInt)) {n : ℤ} (hn : (p : ℤ) ∣ n) :
    d ∣ (n : CycloInt) := by
  obtain ⟨k, rfl⟩ := hn
  refine hd.trans ⟨(k : CycloInt), ?_⟩
  push_cast
  rfl

/-- The squared absolute values of `u + i` and `u + i√2`. -/
theorem witness_absSq (u : ℕ) :
    (CycloInt.ofInt u + imaginaryUnit).absSq = (((u : ℤ) ^ 2 - -1 : ℤ) : QuadInt) ∧
      (CycloInt.ofInt u + ⟨0, 1, 0, 1⟩).absSq = (((u : ℤ) ^ 2 - -2 : ℤ) : QuadInt) := by
  constructor <;> ext <;>
  · simp only [absSq, add_x₀, add_x₁, add_x₂, add_x₃, CycloInt.ofInt, imaginaryUnit, QuadInt.intCast_a,
      QuadInt.intCast_b]
    ring

theorem witness_sub_conj (u : ℕ) :
    (CycloInt.ofInt u + imaginaryUnit - (CycloInt.ofInt u + imaginaryUnit).conj).norm = 2 ^ 4 ∧
      (CycloInt.ofInt u + ⟨0, 1, 0, 1⟩ - (CycloInt.ofInt u + ⟨0, 1, 0, 1⟩).conj).norm = 2 ^ 6 := by
  constructor <;> simp [imaginaryUnit, CycloInt.ofInt, CycloInt.norm_eq_sq_add_sq]

/-- A prime that is 3 or 5 modulo eight splits in `ℤ[ω]`. -/
theorem inert_spec (hp : p.Prime) (h8 : p % 8 = 3 ∨ p % 8 = 5) :
    ∃ pi, inert p = .ok pi ∧ pi.norm = (p : ℤ) * p ∧ pi.absSq ∣ (p : QuadInt) := by
  have := Fact.mk hp
  have hp2 : p ≠ 2 := by omega
  have hreal : conjHom (p : CycloInt) = p := map_natCast conjHom p
  have hgcd {w : CycloInt} {n : ℤ} {k : ℕ} (hn : (p : ℤ) ∣ n) (habs : w.absSq = (n : QuadInt))
      (hsub : (w - w.conj).norm = 2 ^ k) :
      ∃ pi, gcdOfNorm (CycloInt.ofInt p) w ((p : ℤ) * p) = .ok pi ∧ pi.norm = (p : ℤ) * p ∧
        pi.absSq ∣ (p : QuadInt) := by
    have hproper := LawfulDivision.gcd_proper conjHom conj_conj (d := (p : CycloInt)) (w := w) hreal
      (by rw [conjHom_apply, mul_conj, habs, ofQuad_intCast]; exact dvd_of_dvd_intCast dvd_rfl hn)
      (not_dvd_of_norm hp hp2 four_ne_zero (norm_natCast p) hsub)
    have hprime := inert_of_proper hp h8 (LawfulDivision.gcd_dvd_left _ _) hproper.1 hproper.2
    exact ⟨_, gcdOfNorm_eq hprime.1, hprime⟩
  by_cases h5 : p % 8 = 5
  · obtain ⟨u, hu, hdvd⟩ := root_spec hp hp2 (a := -1)
      (by rw [Int.cast_neg, Int.cast_one]; exact ZMod.exists_sq_eq_neg_one_iff.2 (by omega)) (.noRoot (-1) p)
    simp only [inert, if_pos h5, hu, bind, Except.bind, pure, Except.pure]
    exact hgcd hdvd (witness_absSq u).1 (witness_sub_conj u).1
  · obtain ⟨u, hu, hdvd⟩ := root_spec hp hp2 (a := -2)
      (by rw [Int.cast_neg, Int.cast_ofNat]; exact (ZMod.exists_sq_eq_neg_two_iff hp2).2 (by omega)) (.noRoot (-2) p)
    simp only [inert, if_neg h5, hu, bind, Except.bind, pure, Except.pure]
    exact hgcd hdvd (witness_absSq u).2 (witness_sub_conj u).2

/-- A prime of `ℤ[√2]` above a prime that is 1 modulo eight splits in `ℤ[ω]`. -/
theorem split_spec (hp : p.Prime) (h8 : p % 8 = 1) {eta : QuadInt} (heta : eta.norm.natAbs = p) :
    ∃ pi, split eta p = .ok pi ∧ pi.norm = p ∧ pi.absSq ∣ eta := by
  have := Fact.mk hp
  have hp2 : p ≠ 2 := by omega
  have hnorm : (ofQuad eta).norm = (p : ℤ) ^ 2 := by rw [norm_ofQuad, ← heta, Int.natCast_natAbs, sq_abs]
  obtain ⟨u, hu, hdvd⟩ := root_spec hp hp2 (a := -1)
    (by rw [Int.cast_neg, Int.cast_one]; exact ZMod.exists_sq_eq_neg_one_iff.2 (by omega)) (.noRoot (-1) p)
  have hetap : ofQuad eta ∣ (p : CycloInt) := by
    have h := map_dvd ofQuadHom (QuadInt.dvd_natCast heta)
    rwa [map_natCast] at h
  have hproper := LawfulDivision.gcd_proper conjHom conj_conj (d := ofQuad eta)
    (w := CycloInt.ofInt u + imaginaryUnit) (by rw [conjHom_apply, conj_ofQuad])
    (by rw [conjHom_apply, mul_conj, (witness_absSq u).1, ofQuad_intCast]; exact dvd_of_dvd_intCast hetap hdvd)
    (not_dvd_of_norm hp hp2 two_ne_zero hnorm (witness_sub_conj u).1)
  have hleft := LawfulDivision.gcd_dvd_left (ofQuad eta) (CycloInt.ofInt u + imaginaryUnit)
  obtain ⟨i, hi0, hi2, hi⟩ := norm_of_proper hp hnorm hleft hproper.1 hproper.2
  obtain rfl : i = 1 := by omega
  rw [pow_one] at hi
  refine ⟨_, ?_, hi, ?_⟩
  · simp only [split, hu, bind, Except.bind]
    exact gcdOfNorm_eq hi
  · have hprime : Prime (EuclideanDivision.gcd (ofQuad eta) (CycloInt.ofInt u + imaginaryUnit)).absSq :=
      QuadInt.prime_of_norm (by rw [← CycloInt.norm, hi, Int.natAbs_natCast]; exact hp)
    have hsq := absSq_dvd hleft
    rw [absSq_ofQuad] at hsq
    exact hprime.dvd_of_dvd_pow hsq

end PrimeAbove

end CliffordT

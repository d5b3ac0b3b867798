import CliffordT.Proofs.Ring.Euclid

/-!
How rational primes behave in `ℤ[√2]` and `ℤ[ω]`.

A prime that is 3 or 5 modulo eight divides a number of `ℤ[√2]` as soon as it divides its norm. A prime of `ℤ[√2]` above a
prime that is 3 modulo four stays prime in `ℤ[ω]`, because its norm there is no sum of two squares, and therefore it divides
squared absolute values to even powers only.
-/

namespace CliffordT

namespace QuadInt

/-- An element whose norm is a prime number is prime. -/
theorem prime_of_norm {x : QuadInt} (h : x.norm.natAbs.Prime) : Prime x := by
  refine Irreducible.prime ⟨?_, fun a b hab => ?_⟩
  · rw [isUnit_iff]
    exact h.ne_one
  · rw [hab, norm_mul, Int.natAbs_mul, Nat.prime_mul_iff] at h
    rw [isUnit_iff, isUnit_iff]
    rcases h with ⟨-, hb⟩ | ⟨-, ha⟩
    · exact .inr hb
    · exact .inl ha

theorem natCast_dvd_iff (p : ℕ) (x : QuadInt) : (p : QuadInt) ∣ x ↔ (p : ℤ) ∣ x.a ∧ (p : ℤ) ∣ x.b := by
  constructor
  · rintro ⟨y, rfl⟩
    exact ⟨⟨y.a, by simp⟩, ⟨y.b, by simp⟩⟩
  · rintro ⟨⟨a, ha⟩, ⟨b, hb⟩⟩
    exact ⟨⟨a, b⟩, by ext <;> simp [ha, hb]⟩

theorem dvd_of_dvd_norm_root {x : QuadInt} (h : (2 : ℤ) ∣ x.norm) : root ∣ x := by
  rw [← even_iff_root_dvd, isEven, decide_eq_true_eq]
  obtain ⟨k, hk⟩ := h
  rw [norm] at hk
  have heven : 2 ∣ x.a * x.a := ⟨k + x.b * x.b, by omega⟩
  exact Int.emod_eq_zero_of_dvd (Int.prime_two.dvd_of_dvd_pow (n := 2) (by rwa [pow_two]))

/-- A power of two in the norm is matched by a power of `√2` in the number. -/
theorem root_pow_dvd_of_norm {k : ℕ} {x : QuadInt} (h : (2 : ℤ) ^ k ∣ x.norm) : root ^ k ∣ x := by
  induction k generalizing x with
  | zero => exact one_dvd x
  | succ k ih =>
    obtain ⟨y, rfl⟩ := dvd_of_dvd_norm_root (dvd_trans (dvd_pow_self 2 k.succ_ne_zero) h)
    have hroot : root.norm = -2 := by decide
    rw [norm_mul, hroot, pow_succ', neg_mul, dvd_neg] at h
    rw [pow_succ']
    exact mul_dvd_mul_left root (ih ((mul_dvd_mul_iff_left two_ne_zero).1 h))

/-! ### Primes that stay prime -/

variable {p : ℕ}

theorem natCast_dvd_of_dvd_norm (hp : p.Prime) (h8 : p % 8 = 3 ∨ p % 8 = 5) {x : QuadInt}
    (h : (p : ℤ) ∣ x.norm) : (p : QuadInt) ∣ x := by
  have := Fact.mk hp
  have hsquare : (x.a : ZMod p) * x.a = 2 * (x.b * x.b) := by
    rw [← ZMod.intCast_zmod_eq_zero_iff_dvd, norm] at h
    push_cast at h
    exact sub_eq_zero.1 h
  have hb : (x.b : ZMod p) = 0 := by
    by_contra hb
    have htwo : IsSquare (2 : ZMod p) := ⟨x.a / x.b, by field_simp; linear_combination -hsquare⟩
    rw [ZMod.exists_sq_eq_two_iff (by omega)] at htwo
    omega
  have ha : (x.a : ZMod p) = 0 := by
    rw [hb, mul_zero, mul_zero] at hsquare
    exact mul_self_eq_zero.1 hsquare
  exact (natCast_dvd_iff p x).2 ⟨(ZMod.intCast_zmod_eq_zero_iff_dvd _ p).1 ha,
    (ZMod.intCast_zmod_eq_zero_iff_dvd _ p).1 hb⟩

/-- A power of the prime in the norm is matched by half that power in the number, rounded up. -/
theorem natCast_pow_dvd_of_norm (hp : p.Prime) (h8 : p % 8 = 3 ∨ p % 8 = 5) {e : ℕ} {x : QuadInt}
    (h : (p : ℤ) ^ e ∣ x.norm) : (p : QuadInt) ^ ((e + 1) / 2) ∣ x := by
  induction e using Nat.twoStepInduction generalizing x with
  | zero => exact one_dvd x
  | one => simpa using natCast_dvd_of_dvd_norm hp h8 (by rwa [pow_one] at h)
  | more e ih _ =>
    obtain ⟨y, rfl⟩ := natCast_dvd_of_dvd_norm hp h8 (dvd_trans (dvd_pow_self _ (e + 1).succ_ne_zero) h)
    have hne : (p : ℤ) ^ 2 ≠ 0 := pow_ne_zero 2 (by exact_mod_cast hp.ne_zero)
    rw [norm_mul, norm_natCast, pow_add, mul_comm, mul_dvd_mul_iff_left hne] at h
    rw [show (e + 2 + 1) / 2 = (e + 1) / 2 + 1 by omega, pow_succ']
    exact mul_dvd_mul_left _ (ih h)

/-! ### Primes that split -/

variable {eta : QuadInt}

theorem dvd_natCast (heta : eta.norm.natAbs = p) : eta ∣ (p : QuadInt) := by
  have hm := mul_bullet eta
  obtain h | h := Int.natAbs_eq_iff.1 heta
  · exact ⟨eta.bullet, by rw [hm, h]; simp⟩
  · exact ⟨-eta.bullet, by rw [mul_neg, hm, h]; simp⟩

/-- A prime above `p` divides every number whose norm is divisible by `p`, or its conjugate does. -/
theorem dvd_or_bullet_dvd (hp : p.Prime) (heta : eta.norm.natAbs = p) {x : QuadInt} (h : (p : ℤ) ∣ x.norm) :
    eta ∣ x ∨ eta.bullet ∣ x := by
  have hprime : Prime eta := prime_of_norm (by rwa [heta])
  have hdvd : eta ∣ x * x.bullet := by
    rw [mul_bullet]
    refine (dvd_natCast heta).trans ?_
    obtain ⟨k, hk⟩ := h
    exact ⟨k, by rw [hk]; push_cast; rfl⟩
  rcases hprime.dvd_or_dvd hdvd with hx | hx
  · exact .inl hx
  · right
    simpa using bullet_dvd hx

theorem bullet_pow_dvd_of_norm (hp : p.Prime) (heta : eta.norm.natAbs = p) {k : ℕ} {x : QuadInt}
    (hx : ¬eta ∣ x) (h : (p : ℤ) ^ k ∣ x.norm) : eta.bullet ^ k ∣ x := by
  induction k generalizing x with
  | zero => exact one_dvd x
  | succ k ih =>
    have hdvd : (p : ℤ) ∣ x.norm := dvd_trans (dvd_pow_self _ k.succ_ne_zero) h
    obtain ⟨y, rfl⟩ := (dvd_or_bullet_dvd hp heta hdvd).resolve_left hx
    have hnorm : (p : ℤ) ^ k ∣ y.norm := by
      have hne : (p : ℤ) ≠ 0 := by exact_mod_cast hp.ne_zero
      rw [norm_mul, norm_bullet, pow_succ'] at h
      obtain h' | h' := Int.natAbs_eq_iff.1 heta
      · rwa [h', mul_dvd_mul_iff_left hne] at h
      · rwa [h', neg_mul, dvd_neg, mul_dvd_mul_iff_left hne] at h
    rw [pow_succ']
    exact mul_dvd_mul_left _ (ih (fun hy => hx (hy.mul_left _)) hnorm)

end QuadInt

namespace CycloInt

variable {p : ℕ} {eta : QuadInt}

/-- A prime of `ℤ[√2]` above a prime that is 3 modulo four is prime in `ℤ[ω]`. -/
theorem prime_ofQuad (hp : p.Prime) (h4 : p % 4 = 3) (heta : eta.norm.natAbs = p) : Prime (ofQuad eta) := by
  have hnorm : (ofQuad eta).norm = (p : ℤ) ^ 2 := by rw [norm_ofQuad, ← heta, Int.natCast_natAbs, sq_abs]
  have hp2 := hp.two_le
  refine Irreducible.prime ⟨?_, fun a b hab => ?_⟩
  · rw [isUnit_iff, hnorm]
    exact_mod_cast (by nlinarith : p ^ 2 ≠ 1)
  · rw [hab, norm_mul] at hnorm
    rw [isUnit_iff, isUnit_iff]
    obtain ⟨m, hm⟩ := Int.eq_ofNat_of_zero_le (norm_nonneg a)
    obtain ⟨n, hn⟩ := Int.eq_ofNat_of_zero_le (norm_nonneg b)
    rw [hm, hn] at hnorm ⊢
    have hmn : m * n = p ^ 2 := by exact_mod_cast hnorm
    obtain ⟨k, hk, rfl⟩ := (Nat.dvd_prime_pow hp).1 (Dvd.intro n hmn)
    interval_cases k
    · exact .inl (by simp)
    · -- The norm would be a sum of two squares, which a prime that is 3 modulo four is not.
      exfalso
      rw [norm_eq_sq_add_sq] at hm
      have hmod := congrArg (· % 4) hm
      have hsq (t : ℤ) : t ^ 2 % 4 = 0 ∨ t ^ 2 % 4 = 1 := by
        rcases Int.even_or_odd' t with ⟨s, rfl | rfl⟩ <;> ring_nf <;> omega
      have h₁ := hsq (a.x₀ ^ 2 - a.x₂ ^ 2 + 2 * a.x₁ * a.x₃)
      have h₂ := hsq (2 * a.x₀ * a.x₂ - a.x₁ ^ 2 + a.x₃ ^ 2)
      rw [pow_one] at hmod
      omega
    · right
      have : 0 < p ^ 2 := by positivity
      exact_mod_cast Nat.eq_of_mul_eq_mul_left this (by rw [hmn, mul_one])

theorem dvd_of_dvd_absSq (hp : p.Prime) (h4 : p % 4 = 3) (heta : eta.norm.natAbs = p) {t : CycloInt}
    (h : eta ∣ t.absSq) : ofQuad eta ∣ t := by
  have hprime := prime_ofQuad hp h4 heta
  have hdvd : ofQuad eta ∣ t.conj * t := by
    rw [conj_mul_self]
    exact map_dvd ofQuadHom h
  rcases hprime.dvd_or_dvd hdvd with ht | ht
  · have hconj := map_dvd conjHom ht
    simpa using hconj
  · exact ht

/-- Such a prime divides a squared absolute value to an even power. -/
theorem even_of_exact_power (hp : p.Prime) (h4 : p % 4 = 3) (heta : eta.norm.natAbs = p) {k : ℕ} {t : CycloInt}
    (h : eta ^ k ∣ t.absSq) (hnot : ¬eta ^ (k + 1) ∣ t.absSq) : k % 2 = 0 := by
  have hne : eta ≠ 0 := (QuadInt.prime_of_norm (by rwa [heta])).ne_zero
  induction k using Nat.twoStepInduction generalizing t with
  | zero => rfl
  | one =>
    obtain ⟨s, rfl⟩ := dvd_of_dvd_absSq hp h4 heta (by rwa [pow_one] at h)
    rw [absSq_mul, absSq_ofQuad] at hnot
    exact absurd (dvd_mul_right _ _) hnot
  | more k ih _ =>
    obtain ⟨s, rfl⟩ := dvd_of_dvd_absSq hp h4 heta (dvd_trans (dvd_pow_self _ (k + 1).succ_ne_zero) h)
    rw [absSq_mul, absSq_ofQuad] at h hnot
    rw [add_right_comm, pow_add, mul_comm, mul_dvd_mul_iff_left (pow_ne_zero 2 hne)] at hnot
    rw [pow_add, mul_comm, mul_dvd_mul_iff_left (pow_ne_zero 2 hne)] at h
    rw [Nat.add_mod_right]
    exact ih h hnot

end CycloInt

end CliffordT

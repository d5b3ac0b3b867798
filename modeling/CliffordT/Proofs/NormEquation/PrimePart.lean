import CliffordT.Proofs.NormEquation.PrimeAbove
import CliffordT.Proofs.NormEquation.UnitLog
import CliffordT.NormEquation.Solve

/-!
The factors of a solution of the norm equation, one for each prime that divides the norm.

The part of a solution that belongs to a set of primes is a number whose squared absolute value divides `ξ` and whose
norm is the product of the powers of these primes in the norm of `ξ`. Parts for different primes are multiplied.
A prime that is 7 modulo eight has a part only if both primes above it divide `ξ` to an even power, and
otherwise the equation has no solution.
-/

namespace CliffordT

namespace QuadInt

/-- The two primes above an odd prime that splits are different. -/
theorem not_dvd_bullet {p : ℕ} (hp : p.Prime) (hp2 : p ≠ 2) {eta : QuadInt} (heta : eta.norm.natAbs = p) :
    ¬eta.bullet ∣ eta := by
  intro h
  have hpn : (p : ℤ) ∣ eta.norm := by
    rw [← Int.natAbs_dvd_natAbs, Int.natAbs_natCast, heta]
  have hodd {n : ℤ} (hn : (p : ℤ) ∣ 2 * n) : (p : ℤ) ∣ n := by
    rcases Int.Prime.dvd_mul' hp hn with h2 | h2
    · exact absurd ((Nat.prime_dvd_prime_iff_eq hp Nat.prime_two).1 (by exact_mod_cast h2)) hp2
    · exact h2
  -- Its conjugate would divide its trace, and then the prime below both coordinates, which makes the norm too large.
  have ha : (p : ℤ) ∣ eta.a := by
    have hsum : eta.bullet ∣ ((2 * eta.a : ℤ) : QuadInt) := by
      have htrace : ((2 * eta.a : ℤ) : QuadInt) = eta + eta.bullet := by
        ext
        · rw [intCast_a, add_a, bullet_a]
          ring
        · rw [intCast_b, add_b, bullet_b]
          ring
      rw [htrace]
      exact dvd_add h dvd_rfl
    have hnorm := norm_dvd hsum
    rw [norm_bullet, norm_intCast] at hnorm
    exact hodd (Int.Prime.dvd_pow' hp (hpn.trans hnorm))
  have hb : (p : ℤ) ∣ eta.b := by
    have h2 : (p : ℤ) ∣ 2 * (eta.b * eta.b) := by
      have hsub := dvd_sub (ha.mul_right eta.a) hpn
      rwa [norm, sub_sub_cancel] at hsub
    rcases Int.Prime.dvd_mul' hp (hodd h2) with h3 | h3 <;> exact h3
  have hdvd := norm_dvd ((natCast_dvd_iff p eta).2 ⟨ha, hb⟩)
  rw [norm_natCast, ← Int.natAbs_dvd_natAbs, Int.natAbs_pow, Int.natAbs_natCast, heta] at hdvd
  have hle := Nat.le_of_dvd hp.pos hdvd
  nlinarith [hp.two_le]

end QuadInt

namespace NormEquation

open CycloInt

theorem multiplicity_le (d x : QuadInt) (limit : ℕ) : multiplicity d x limit ≤ limit := by
  induction limit generalizing x with
  | zero => exact le_rfl
  | succ limit ih =>
    rw [multiplicity]
    split
    · next q _ => exact Nat.succ_le_succ (ih q)
    · exact Nat.zero_le _

/-- The multiplicity is right up to the limit. -/
theorem le_multiplicity_iff {d : QuadInt} (hd : d ≠ 0) {k limit : ℕ} (hk : k ≤ limit) (x : QuadInt) :
    k ≤ multiplicity d x limit ↔ d ^ k ∣ x := by
  induction limit generalizing k x with
  | zero =>
    obtain rfl : k = 0 := by omega
    simp
  | succ limit ih =>
    rcases k with _ | k
    · simp
    rw [multiplicity]
    split
    · next q hq =>
      obtain ⟨-, rfl⟩ := (QuadInt.quotient?_eq_some_iff x d q).1 hq
      rw [Nat.succ_le_succ_iff, ih (by omega), pow_succ, mul_dvd_mul_iff_right hd]
    · next hq =>
      refine ⟨fun h => absurd h (by omega), fun h => ?_⟩
      obtain ⟨q, rfl⟩ := (dvd_pow_self d k.succ_ne_zero).trans h
      have hsome := (QuadInt.quotient?_eq_some_iff (d * q) d q).2 ⟨hd, mul_comm d q⟩
      rw [hq] at hsome
      cases hsome

/-! ### Parts of a solution -/

/-- A number whose squared absolute value divides `ξ` and has the given norm. -/
structure Part (xi : QuadInt) (n : ℕ) (s : CycloInt) : Prop where
  dvd : s.absSq ∣ xi
  norm : s.norm = n

theorem Part.absSq_dvd_natCast {xi : QuadInt} {n : ℕ} {s : CycloInt} (h : Part xi n s) :
    s.absSq ∣ (n : QuadInt) := by
  refine ⟨s.absSq.bullet, ?_⟩
  rw [QuadInt.mul_bullet, ← CycloInt.norm, h.norm, Int.cast_natCast]

/-- Parts for different primes are multiplied. -/
theorem Part.mul {xi : QuadInt} {m n : ℕ} {s t : CycloInt} (hs : Part xi m s) (ht : Part xi n t)
    (hmn : m.Coprime n) : Part xi (m * n) (s * t) := by
  constructor
  · have hcoprime : IsCoprime (m : QuadInt) (n : QuadInt) := by
      have h := (Nat.isCoprime_iff_coprime.2 hmn).map (Int.castRingHom QuadInt)
      simpa using h
    rw [absSq_mul]
    exact (hcoprime.of_isCoprime_of_dvd_left hs.absSq_dvd_natCast).of_isCoprime_of_dvd_right
      ht.absSq_dvd_natCast |>.mul_dvd hs.dvd ht.dvd
  · rw [CycloInt.norm_mul, hs.norm, ht.norm, Nat.cast_mul]

/-- What the computation of a part ends with: the part, or the finding that there is no solution. -/
def PartOrNone (xi : QuadInt) (n : ℕ) (result : Except Failure CycloInt) : Prop :=
  (∃ s, result = .ok s ∧ Part xi n s) ∨ result = .error (.notNorm (toString xi)) ∧ ∀ t : CycloInt, t.absSq ≠ xi

section

variable {xi : QuadInt} {p e : ℕ}

theorem primePart_two (hdvd : (2 : ℤ) ^ e ∣ xi.norm) : ∃ s, primePart xi 2 e = .ok s ∧ Part xi (2 ^ e) s := by
  refine ⟨_, if_pos rfl, ?_, ?_⟩
  · have hunit : (QuadInt.lambdaInv * QuadInt.lambda) ^ e = 1 := by
      rw [show QuadInt.lambdaInv * QuadInt.lambda = 1 by decide, one_pow]
    obtain ⟨y, hy⟩ := QuadInt.root_pow_dvd_of_norm hdvd
    refine ⟨QuadInt.lambda ^ e * y, ?_⟩
    rw [pow_eq, absSq_pow, show primeAboveTwo.absSq = QuadInt.root * QuadInt.lambdaInv by decide, mul_pow, hy]
    linear_combination -(QuadInt.root ^ e * y) * hunit + (QuadInt.root ^ e * y) *
      mul_pow QuadInt.lambdaInv QuadInt.lambda e
  · rw [pow_eq, norm_pow, show primeAboveTwo.norm = 2 by decide]
    push_cast
    rfl

/-- A prime that is 3 or 5 modulo eight divides the norm to an even power and has a part. -/
theorem primePart_inert (hp : p.Prime) (h8 : p % 8 = 3 ∨ p % 8 = 5) (hdvd : (p : ℤ) ^ e ∣ xi.norm)
    (hnot : ¬(p : ℤ) ^ (e + 1) ∣ xi.norm) : ∃ s, primePart xi p e = .ok s ∧ Part xi (p ^ e) s := by
  have hpow := QuadInt.natCast_pow_dvd_of_norm hp h8 hdvd
  have heven : e % 2 = 0 := by
    by_contra hodd
    refine hnot ?_
    have hnorm := QuadInt.norm_dvd hpow
    rwa [QuadInt.norm_pow, QuadInt.norm_natCast, ← pow_mul, show 2 * ((e + 1) / 2) = e + 1 by omega] at hnorm
  obtain ⟨pi, hpi, hnorm, habs⟩ := PrimeAbove.inert_spec hp h8
  refine ⟨pi.pow (e / 2), ?_, ?_, ?_⟩
  · rw [primePart, if_neg (by omega), if_pos h8, if_neg (by omega), hpi]
    rfl
  · rw [pow_eq, absSq_pow]
    refine (pow_dvd_pow_of_dvd habs _).trans ?_
    rwa [show (e + 1) / 2 = e / 2 by omega] at hpow
  · rw [pow_eq, norm_pow, hnorm, ← pow_two, ← pow_mul, show 2 * (e / 2) = e by omega]
    push_cast
    rfl

theorem pow_dvd_norm {d x : QuadInt} (hd : d.norm.natAbs = p) {k : ℕ} (h : d ^ k ∣ x) : (p : ℤ) ^ k ∣ x.norm := by
  have hnorm := QuadInt.norm_dvd h
  rwa [QuadInt.norm_pow, ← Int.natAbs_dvd, Int.natAbs_pow, hd, Nat.cast_pow] at hnorm

theorem pow_dvd_norm_mul_iff (hp : p.Prime) {d : QuadInt} (hd : d.norm.natAbs = p) (k l : ℕ) (x : QuadInt) :
    (p : ℤ) ^ (k + l) ∣ (d ^ k * x).norm ↔ (p : ℤ) ^ l ∣ x.norm := by
  have hpow : (d ^ k).norm.natAbs = p ^ k := by rw [QuadInt.norm_pow, Int.natAbs_pow, hd]
  rw [← Int.natCast_pow, ← Int.natCast_pow, Int.natCast_dvd, Int.natCast_dvd, QuadInt.norm_mul, Int.natAbs_mul, hpow,
    pow_add]
  exact Nat.mul_dvd_mul_iff_left (pow_pos hp.pos k)

/-- The multiplicities of the two primes above a prime that splits add up, and their powers divide together. -/
theorem multiplicities_spec (hp : p.Prime) (hp2 : p ≠ 2) {eta : QuadInt} (heta : eta.norm.natAbs = p)
    (hdvd : (p : ℤ) ^ e ∣ xi.norm) (hnot : ¬(p : ℤ) ^ (e + 1) ∣ xi.norm) :
    ∃ first second, multiplicity eta xi e = first ∧ multiplicity eta.bullet xi (e - first) = second ∧
      first + second = e ∧ eta ^ first * eta.bullet ^ second ∣ xi ∧ ¬eta ^ (first + 1) ∣ xi ∧
      ¬eta.bullet ^ (second + 1) ∣ xi := by
  have heta' : eta.bullet.norm.natAbs = p := by rwa [QuadInt.norm_bullet]
  have hprime : Prime eta := QuadInt.prime_of_norm (by rwa [heta])
  have hprime' : Prime eta.bullet := QuadInt.prime_of_norm (by rwa [heta'])
  obtain ⟨first, hfirst⟩ : ∃ n, multiplicity eta xi e = n := ⟨_, rfl⟩
  have hle : first ≤ e := hfirst ▸ multiplicity_le eta xi e
  obtain ⟨x, rfl⟩ := (le_multiplicity_iff hprime.ne_zero hle xi).1 hfirst.ge
  have hexact : ¬eta ^ (first + 1) ∣ eta ^ first * x := by
    rcases hle.lt_or_eq with hlt | rfl
    · intro h
      have := (le_multiplicity_iff hprime.ne_zero hlt _).2 h
      omega
    · exact fun h => hnot (pow_dvd_norm heta h)
  have hx : ¬eta ∣ x := by
    intro h
    rw [pow_succ] at hexact
    exact hexact (mul_dvd_mul_left _ h)
  have hbullet : eta.bullet ^ (e - first) ∣ x := by
    refine QuadInt.bullet_pow_dvd_of_norm hp heta hx ?_
    rw [← pow_dvd_norm_mul_iff hp heta first, Nat.add_sub_cancel' hle]
    exact hdvd
  have hsecond : multiplicity eta.bullet (eta ^ first * x) (e - first) = e - first :=
    le_antisymm (multiplicity_le _ _ _)
      ((le_multiplicity_iff hprime'.ne_zero le_rfl _).2 (hbullet.mul_left _))
  refine ⟨first, e - first, hfirst, hsecond, Nat.add_sub_cancel' hle, mul_dvd_mul_left _ hbullet, hexact, ?_⟩
  intro h
  have hnotdvd : ¬eta.bullet ∣ eta ^ first := fun h => QuadInt.not_dvd_bullet hp hp2 heta (hprime'.dvd_of_dvd_pow h)
  have hpow := pow_dvd_norm heta' (hprime'.pow_dvd_of_dvd_mul_left _ hnotdvd h)
  rw [← pow_dvd_norm_mul_iff hp heta first, ← add_assoc, Nat.add_sub_cancel' hle] at hpow
  exact hnot hpow

/-- A prime that is 7 modulo eight has a part, or there is no solution. -/
theorem primePart_seven (hp : p.Prime) (h8 : p % 8 = 7) (hdvd : (p : ℤ) ^ e ∣ xi.norm)
    (hnot : ¬(p : ℤ) ^ (e + 1) ∣ xi.norm) : PartOrNone xi (p ^ e) (primePart xi p e) := by
  obtain ⟨eta, hquad, heta⟩ := PrimeAbove.quad_spec hp (.inr h8)
  have heta' : eta.bullet.norm.natAbs = p := by rwa [QuadInt.norm_bullet]
  obtain ⟨first, second, hfirst, hsecond, hsum, hmul, hexact, hexact'⟩ :=
    multiplicities_spec hp (by omega) heta hdvd hnot
  have hcalc : primePart xi p e = if first % 2 = 1 ∨ second % 2 = 1 then .error (.notNorm (toString xi))
      else .ok ((ofQuad eta).pow (first / 2) * (ofQuad eta.bullet).pow (second / 2)) := by
    simp only [primePart, hquad, hfirst, hsecond, hsum, h8, bind, Except.bind]
    rw [if_neg (by omega), if_neg (by omega), if_neg (by omega), if_pos trivial]
  rw [hcalc]
  by_cases hodd : first % 2 = 1 ∨ second % 2 = 1
  · rw [if_pos hodd]
    refine .inr ⟨rfl, fun t ht => ?_⟩
    subst ht
    have h₁ := even_of_exact_power hp (by omega) heta ((dvd_mul_right _ _).trans hmul) hexact
    have h₂ := even_of_exact_power hp (by omega) heta' ((dvd_mul_left _ _).trans hmul) hexact'
    omega
  · rw [if_neg hodd]
    refine .inl ⟨_, rfl, ?_, ?_⟩
    · rw [pow_eq, pow_eq, absSq_mul, absSq_pow, absSq_pow, absSq_ofQuad, absSq_ofQuad, ← pow_mul, ← pow_mul,
        show 2 * (first / 2) = first by omega, show 2 * (second / 2) = second by omega]
      exact hmul
    · have hsq : eta.norm ^ 2 = (p : ℤ) ^ 2 := by rw [← heta, Int.natCast_natAbs, sq_abs]
      rw [pow_eq, pow_eq, CycloInt.norm_mul, norm_pow, norm_pow, norm_ofQuad, norm_ofQuad, QuadInt.norm_bullet, hsq,
        ← pow_add, ← pow_mul, show 2 * (first / 2 + second / 2) = e by omega]
      push_cast
      rfl

/-- A prime that is 1 modulo eight has a part. -/
theorem primePart_one (hp : p.Prime) (h8 : p % 8 = 1) (hdvd : (p : ℤ) ^ e ∣ xi.norm)
    (hnot : ¬(p : ℤ) ^ (e + 1) ∣ xi.norm) : ∃ s, primePart xi p e = .ok s ∧ Part xi (p ^ e) s := by
  obtain ⟨eta, hquad, heta⟩ := PrimeAbove.quad_spec hp (.inl h8)
  obtain ⟨first, second, hfirst, hsecond, hsum, hmul, -, -⟩ := multiplicities_spec hp (by omega) heta hdvd hnot
  obtain ⟨pi, hsplit, hnorm, habs⟩ := PrimeAbove.split_spec hp h8 heta
  refine ⟨pi.pow first * pi.bullet.pow second, ?_, ?_, ?_⟩
  · simp only [primePart, hquad, hfirst, hsecond, hsum, hsplit, bind, Except.bind]
    rw [if_neg (by omega), if_neg (by omega), if_neg (by omega), if_neg (by omega)]
  · rw [pow_eq, pow_eq, absSq_mul, absSq_pow, absSq_pow, absSq_bullet]
    refine dvd_trans ?_ hmul
    exact mul_dvd_mul (pow_dvd_pow_of_dvd habs _) (pow_dvd_pow_of_dvd (QuadInt.bullet_dvd habs) _)
  · rw [pow_eq, pow_eq, CycloInt.norm_mul, norm_pow, norm_pow, norm_bullet, hnorm, ← pow_add, hsum]
    push_cast
    rfl

/-- A prime has a part, or there is no solution. -/
theorem primePart_spec (hp : p.Prime) (hdvd : (p : ℤ) ^ e ∣ xi.norm) (hnot : ¬(p : ℤ) ^ (e + 1) ∣ xi.norm) :
    PartOrNone xi (p ^ e) (primePart xi p e) := by
  obtain rfl | hodd := hp.eq_two_or_odd
  · exact .inl (primePart_two hdvd)
  obtain h8 | h8 | h8 : (p % 8 = 3 ∨ p % 8 = 5) ∨ p % 8 = 7 ∨ p % 8 = 1 := by omega
  · exact .inl (primePart_inert hp h8 hdvd hnot)
  · exact primePart_seven hp h8 hdvd hnot
  · exact .inl (primePart_one hp h8 hdvd hnot)

end

/-- The parts of different primes are collected, or there is no solution. -/
theorem primeParts_spec {xi : QuadInt} {factors : List (ℕ × ℕ)} (hprime : ∀ pe ∈ factors, pe.1.Prime)
    (hexact : ∀ pe ∈ factors, (pe.1 : ℤ) ^ pe.2 ∣ xi.norm ∧ ¬(pe.1 : ℤ) ^ (pe.2 + 1) ∣ xi.norm)
    (hsorted : factors.Pairwise fun pe qe => pe.1 < qe.1) (t : CycloInt) :
    (∃ s, primeParts xi factors t = .ok (t * s) ∧ Part xi (factors.map fun pe => pe.1 ^ pe.2).prod s) ∨
      primeParts xi factors t = .error (.notNorm (toString xi)) ∧ ∀ t : CycloInt, t.absSq ≠ xi := by
  induction factors generalizing t with
  | nil =>
    refine .inl ⟨1, by rw [primeParts, mul_one], ?_, ?_⟩
    · rw [absSq_one]
      exact one_dvd xi
    · rfl
  | cons pe rest ih =>
    obtain ⟨p, e⟩ := pe
    obtain ⟨hp, hprime⟩ := List.forall_mem_cons.1 hprime
    obtain ⟨hpe, hexact⟩ := List.forall_mem_cons.1 hexact
    obtain ⟨hlt, hsorted⟩ := List.pairwise_cons.1 hsorted
    rw [primeParts]
    obtain ⟨s, hs, hpart⟩ | ⟨hnone, hno⟩ := primePart_spec hp hpe.1 hpe.2
    · rw [hs]
      obtain ⟨s', hs', hpart'⟩ | ⟨hnone, hno⟩ := ih hprime hexact hsorted (t * s)
      · have hcoprime : (p ^ e).Coprime (rest.map fun pe => pe.1 ^ pe.2).prod := by
          refine Nat.coprime_list_prod_right_iff.2 fun n hn => ?_
          obtain ⟨qf, hqf, rfl⟩ := List.mem_map.1 hn
          exact Nat.Coprime.pow e qf.2 ((Nat.coprime_primes hp (hprime qf hqf)).2 (hlt qf hqf).ne)
        refine .inl ⟨s * s', ?_, hpart.mul hpart' hcoprime⟩
        rw [← mul_assoc]
        exact hs'
      · exact .inr ⟨hnone, hno⟩
    · rw [hnone]
      exact .inr ⟨rfl, hno⟩

end NormEquation

end CliffordT

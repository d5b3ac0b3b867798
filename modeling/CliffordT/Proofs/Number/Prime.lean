import Mathlib
import CliffordT.Number.Prime
import CliffordT.Proofs.Number.Modular
import CliffordT.Proofs.Number.Words

/-!
The test of Miller and Rabin.

Modulo a prime the only square roots of one are one and minus one, so no base proves a prime composite, whatever words the random
bases are made of. A number of at most 81 bits is judged by the fixed bases alone, and what passes is a prime or a strong
pseudoprime to every one of them. There is such a pseudoprime, of 79 bits.
-/

namespace CliffordT

namespace Prime

/-! ### One base -/

/-- With an odd `d` such that `n - 1 = 2 ^ s * d`, the power `b ^ d` is one modulo `n`, or one of the numbers that come of it by
fewer than `s` squarings is minus one. -/
def StrongProbable (n b : ℕ) : Prop :=
  ∃ s d, n - 1 = 2 ^ s * d ∧ d % 2 = 1 ∧ ((b : ZMod n) ^ d = 1 ∨ ∃ r < s, (b : ZMod n) ^ (2 ^ r * d) = -1)

theorem cast_eq_neg_one_iff {n x : ℕ} (hx : x < n) : (x : ZMod n) = -1 ↔ x = n - 1 := by
  rw [eq_neg_iff_add_eq_zero, ← Nat.cast_succ, ZMod.natCast_eq_zero_iff]
  constructor
  · intro h
    have := Nat.le_of_dvd (Nat.succ_pos x) h
    omega
  · intro h
    rw [show x.succ = n by omega]

theorem squaresToMinusOne_iff {n : ℕ} (hn : 0 < n) {k x : ℕ} :
    squaresToMinusOne n k x = true ↔ ∃ r < k, (x : ZMod n) ^ 2 ^ (r + 1) = -1 := by
  induction k generalizing x with
  | zero => simp [squaresToMinusOne]
  | succ k ih =>
    have hsq : ((x * x % n : ℕ) : ZMod n) = (x : ZMod n) ^ 2 := by
      rw [ZMod.natCast_mod, Nat.cast_mul, pow_two]
    rw [squaresToMinusOne, Bool.or_eq_true, decide_eq_true_eq, ih, ← cast_eq_neg_one_iff (Nat.mod_lt _ hn), hsq,
      Nat.exists_lt_succ_left]
    simp only [← pow_mul, ← pow_succ', zero_add, pow_one]

theorem isWitness_eq_false_iff {n d s b : ℕ} (hn : 1 < n) :
    isWitness n d (s + 1) b = false ↔ (b : ZMod n) ^ d = 1 ∨ ∃ r < s + 1, (b : ZMod n) ^ (2 ^ r * d) = -1 := by
  have hlt : Modular.pow n b d < n := by
    rw [Modular.pow_eq]
    exact Nat.mod_lt _ (by omega)
  simp only [isWitness, Bool.not_eq_false', Bool.or_eq_true, decide_eq_true_eq, squaresToMinusOne_iff (show 0 < n by omega),
    ← Modular.cast_eq_one_iff hn hlt, ← cast_eq_neg_one_iff hlt, Modular.cast_pow, or_assoc]
  rw [Nat.exists_lt_succ_left, pow_zero, one_mul]
  simp only [← pow_mul, mul_comm d, Nat.add_sub_cancel]

/-- A number is a power of two times an odd number in one way only. -/
theorem two_pow_mul_odd_inj {s t d e : ℕ} (hd : d % 2 = 1) (he : e % 2 = 1) (h : 2 ^ s * d = 2 ^ t * e) :
    s = t ∧ d = e := by
  have hle {s t d e : ℕ} (he : e % 2 = 1) (h : 2 ^ s * d = 2 ^ t * e) : s ≤ t := by
    have hcoprime : (2 ^ s).Coprime e := Nat.Coprime.pow_left s (Nat.coprime_two_left.2 (Nat.odd_iff.2 he))
    have hdvd : 2 ^ s ∣ 2 ^ t := hcoprime.dvd_of_dvd_mul_right (h ▸ dvd_mul_right _ _)
    exact (Nat.pow_dvd_pow_iff_le_right (by norm_num)).1 hdvd
  obtain rfl : s = t := le_antisymm (hle he h) (hle hd h.symm)
  exact ⟨rfl, Nat.eq_of_mul_eq_mul_left (by positivity) h⟩

theorem isWitness_splitTwos {n b : ℕ} (hn : 2 < n) (hodd : n % 2 = 1) :
    isWitness n (Modular.splitTwos (n - 1)).2 (Modular.splitTwos (n - 1)).1 b = false ↔ StrongProbable n b := by
  obtain ⟨heq, hd⟩ := Modular.splitTwos_spec (show 0 < n - 1 by omega)
  generalize Modular.splitTwos (n - 1) = parts at heq hd ⊢
  obtain ⟨s, d⟩ := parts
  dsimp only at heq hd ⊢
  cases s with
  | zero => omega
  | succ s =>
    rw [isWitness_eq_false_iff (by omega)]
    constructor
    · exact fun h => ⟨s + 1, d, heq, hd, h⟩
    · rintro ⟨t, e, heq', he, h⟩
      obtain ⟨rfl, rfl⟩ := two_pow_mul_odd_inj hd he (heq.symm.trans heq')
      exact h

/-- Without zero divisors, repeated squaring leads to one only from one or through minus one. -/
theorem eq_one_or_exists_neg_one {R : Type*} [CommRing R] [NoZeroDivisors R] {x : R} {s : ℕ} (h : x ^ 2 ^ s = 1) :
    x = 1 ∨ ∃ r < s, x ^ 2 ^ r = -1 := by
  induction s with
  | zero => exact .inl (by rwa [pow_zero, pow_one] at h)
  | succ s ih =>
    rw [pow_succ, pow_mul, sq_eq_one_iff] at h
    obtain h | h := h
    · obtain h | ⟨r, hr, h⟩ := ih h
      · exact .inl h
      · exact .inr ⟨r, by omega, h⟩
    · exact .inr ⟨s, by omega, h⟩

theorem strongProbable_of_prime {n b : ℕ} (hn : n.Prime) (hb : ¬n ∣ b) : StrongProbable n b := by
  have := Fact.mk hn
  have hlt := hn.two_le
  obtain ⟨heq, hd⟩ := Modular.splitTwos_spec (show 0 < n - 1 by omega)
  refine ⟨_, _, heq, hd, ?_⟩
  have hfermat : ((b : ZMod n) ^ (Modular.splitTwos (n - 1)).2) ^ 2 ^ (Modular.splitTwos (n - 1)).1 = 1 := by
    rw [← pow_mul, mul_comm, ← heq]
    exact ZMod.pow_card_sub_one_eq_one (by rwa [Ne, ZMod.natCast_eq_zero_iff])
  simpa only [← pow_mul, mul_comm] using eq_one_or_exists_neg_one hfermat

/-- A number below the square of `bound` is prime unless a prime below `bound` divides it. -/
theorem prime_of_lt_mul_self {n bound : ℕ} (h1 : 1 < n) (hn : n < bound * bound)
    (h : ∀ q : ℕ, q.Prime → q < bound → ¬q ∣ n) : n.Prime := by
  by_contra hprime
  have hmin := Nat.minFac_prime (show n ≠ 1 by omega)
  have hsq := Nat.minFac_sq_le_self (by omega) hprime
  rw [pow_two] at hsq
  exact h _ hmin (Nat.mul_self_lt_mul_self_iff.1 (hsq.trans_lt hn)) n.minFac_dvd

/-! ### All bases -/

theorem prime_of_mem_bases : ∀ b ∈ bases, b.Prime := by
  simp only [bases, List.forall_mem_cons]
  norm_num

theorem mem_bases_of_prime {q : ℕ} (hq : q.Prime) (hlt : q < 41) : q ∈ bases := by
  have hall : ∀ q < 41, q.Prime → q ∈ bases := by decide
  exact hall q hlt hq

theorem passesRandom_of_prime {n d s : ℕ} (hn : 3 < n) (h : ∀ b, ¬n ∣ b → isWitness n d s b = false) (count : ℕ)
    (w : Words) : (passesRandom n d s count w).1 = true := by
  induction count generalizing w with
  | zero => rfl
  | succ count ih =>
    have hlt := Words.below_lt (show 0 < n - 3 by omega) w
    have hbase : ¬n ∣ (w.below (n - 3)).1 + 2 := fun hdvd => absurd (Nat.le_of_dvd (by omega) hdvd) (by omega)
    rw [passesRandom]
    dsimp only
    rw [h _ hbase, if_neg Bool.false_ne_true]
    exact ih _

/-- A prime passes, whatever its size and the random words. -/
theorem isProbable_of_prime {n : ℕ} (hn : n.Prime) (w : Words) : (isProbable n w).1 = true := by
  have htwo := hn.two_le
  have hwitness (h2 : n ≠ 2) (b : ℕ) (hb : ¬n ∣ b) :
      isWitness n (Modular.splitTwos (n - 1)).2 (Modular.splitTwos (n - 1)).1 b = false := by
    have hodd := hn.eq_two_or_odd.resolve_left h2
    exact (isWitness_splitTwos (by omega) hodd).2 (strongProbable_of_prime hn hb)
  rw [isProbable, Int.toNat_natCast]
  simp only [List.any_eq_true, decide_eq_true_eq]
  split_ifs with hsmall hbase hdvd hcomposite hshort
  · omega
  · rfl
  · obtain ⟨b, hb, hmod⟩ := hdvd
    have heq := (Nat.prime_dvd_prime_iff_eq (prime_of_mem_bases b hb) hn).1 (Nat.dvd_of_mod_eq_zero hmod)
    exact absurd ⟨b, hb, heq.symm⟩ hbase
  · obtain ⟨b, hb, hproof⟩ := hcomposite
    have hne : n ≠ b := fun h => hbase ⟨b, hb, h⟩
    rw [hwitness] at hproof
    · cases hproof
    · exact fun h => hbase ⟨2, by decide, h⟩
    · rwa [Nat.prime_dvd_prime_iff_eq hn (prime_of_mem_bases b hb)]
  · rfl
  · have hlong : 3 < n := by
      by_contra hle
      have hlog : n.log2 < 2 := (Nat.log2_lt (by omega)).2 (by omega)
      exact hshort (by rw [decidedBits]; omega)
    exact passesRandom_of_prime hlong (hwitness (by omega)) _ w

theorem later_passesRandom (n d s count : ℕ) (w : Words) : w.Later (passesRandom n d s count w).2 := by
  induction count generalizing w with
  | zero => exact .refl w
  | succ count ih =>
    rw [passesRandom]
    dsimp only
    split
    · exact w.later_below _
    · exact (w.later_below _).trans (ih _)

theorem later_isProbable (n : ℤ) (w : Words) : w.Later (isProbable n w).2 := by
  rw [isProbable]
  dsimp only
  split_ifs
  · exact .refl w
  · exact .refl w
  · exact .refl w
  · exact .refl w
  · exact .refl w
  · exact later_passesRandom _ _ _ _ w

/-! ### Short numbers -/

/-- No random base is tried on a short number: a base itself passes, and so does what is a multiple of no base and strongly
probable to every one. -/
theorem isProbable_short {n : ℕ} (hn : n < 2 ^ decidedBits) (w : Words) :
    (isProbable n w).2 = w ∧
      ((isProbable n w).1 = true ↔ n ∈ bases ∨ 1 < n ∧ ∀ b ∈ bases, ¬b ∣ n ∧ StrongProbable n b) := by
  rw [isProbable, Int.toNat_natCast]
  simp only [List.any_eq_true, decide_eq_true_eq]
  split_ifs with hsmall hbase hdvd hcomposite hshort
  · refine ⟨rfl, iff_of_false not_false ?_⟩
    rintro (hmem | ⟨hlt, -⟩)
    · have := (prime_of_mem_bases n hmem).two_le
      omega
    · omega
  · obtain ⟨b, hb, rfl⟩ := hbase
    exact ⟨rfl, iff_of_true rfl (.inl hb)⟩
  · refine ⟨rfl, iff_of_false not_false ?_⟩
    rintro (hmem | ⟨-, hall⟩)
    · exact hbase ⟨n, hmem, rfl⟩
    · obtain ⟨b, hb, hmod⟩ := hdvd
      exact (hall b hb).1 (Nat.dvd_of_mod_eq_zero hmod)
  all_goals
    have hnot : ∀ b ∈ bases, ¬b ∣ n := fun b hb h => hdvd ⟨b, hb, Nat.mod_eq_zero_of_dvd h⟩
    have hodd : n % 2 = 1 := by
      have := hnot 2 (by decide)
      omega
    have hlarge : 2 < n := by
      have hne : n ≠ 2 := fun h => hbase ⟨2, by decide, h⟩
      omega
  · refine ⟨rfl, iff_of_false not_false ?_⟩
    obtain ⟨b, hb, hproof⟩ := hcomposite
    rintro (hmem | ⟨-, hall⟩)
    · exact hbase ⟨n, hmem, rfl⟩
    · rw [(isWitness_splitTwos hlarge hodd).2 (hall b hb).2] at hproof
      cases hproof
  · refine ⟨rfl, iff_of_true rfl (.inr ⟨by omega, fun b hb => ⟨hnot b hb, ?_⟩⟩)⟩
    rw [← isWitness_splitTwos hlarge hodd, ← Bool.not_eq_true]
    exact fun hproof => hcomposite ⟨b, hb, hproof⟩
  · have hlog : n.log2 < decidedBits := (Nat.log2_lt (by omega)).2 hn
    exact absurd hlog hshort

/-- What the test decides about a number of at most 81 bits, whatever the random words: it accepts the primes, and besides them the
strong pseudoprimes to all bases that no base divides. Below the square of 41 there are none of these. -/
theorem isProbable_iff_prime_or_strongProbable {n : ℤ} (hn : n < 2 ^ 81) (w : Words) :
    (isProbable n w).2 = w ∧
      ((isProbable n w).1 = true ↔
        n.toNat.Prime ∨ 1 < n.toNat ∧ ∀ b ∈ bases, ¬b ∣ n.toNat ∧ StrongProbable n.toNat b) ∧
      (n < 41 ^ 2 → ((isProbable n w).1 = true ↔ n.toNat.Prime)) := by
  have hcast : isProbable n w = isProbable (n.toNat : ℤ) w := by rw [isProbable, isProbable, Int.toNat_natCast]
  obtain ⟨hrest, hiff⟩ := isProbable_short (show n.toNat < 2 ^ decidedBits by rw [decidedBits]; omega) w
  have hprime (h : n.toNat.Prime) : (isProbable n.toNat w).1 = true := isProbable_of_prime h w
  rw [hcast]
  refine ⟨hrest, ⟨fun h => ?_, ?_⟩, fun hsmall => ⟨fun h => ?_, hprime⟩⟩
  · exact (hiff.1 h).imp_left (prime_of_mem_bases _)
  · rintro (h | h)
    · exact hprime h
    · exact hiff.2 (.inr h)
  · obtain hmem | ⟨h1, hall⟩ := hiff.1 h
    · exact prime_of_mem_bases _ hmem
    · exact prime_of_lt_mul_self h1 (show n.toNat < 41 * 41 by omega) fun q hq hlt =>
        (hall q (mem_bases_of_prime hq hlt)).1

/-- A composite number of 79 bits passes. -/
theorem isProbable_iff_prime_or_strongProbable_composite :
    (318665857834031151167461 : ℤ) < 2 ^ 81 ∧ ¬Nat.Prime 318665857834031151167461 ∧
      ∀ w, (isProbable 318665857834031151167461 w).1 = true := by
  have hbits : (318665857834031151167461 : ℤ) < 2 ^ 81 := by norm_num
  have hdvd : ∀ b ∈ bases, ¬b ∣ 318665857834031151167461 := by decide
  have hpasses : ∀ b ∈ bases, isWitness 318665857834031151167461 (Modular.splitTwos 318665857834031151167460).2
      (Modular.splitTwos 318665857834031151167460).1 b = false := by decide +kernel
  refine ⟨hbits, ?_, fun w => ((isProbable_iff_prime_or_strongProbable hbits w).2.1.2 (.inr ⟨by decide, fun b hb => ?_⟩))⟩
  · rw [show 318665857834031151167461 = 399165290221 * 798330580441 by norm_num]
    exact Nat.not_prime_mul (by norm_num) (by norm_num)
  · exact ⟨hdvd b hb, (isWitness_splitTwos (by decide) (by decide)).1 (hpasses b hb)⟩

end Prime

end CliffordT

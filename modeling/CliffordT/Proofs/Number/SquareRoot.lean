import CliffordT.Proofs.Number.Modular

/-!
Square roots modulo any odd number.

A modulus that only passed for a prime does no harm: the search for a non-residue ends before the modulus, because a proper divisor
is never a power residue, and whatever the descent returns is a square root. Modulo a prime there is an answer
for every square, and the residue symbol is that of Legendre.
-/

namespace CliffordT.Modular

variable {p : ℕ}

theorem residueSymbol_zero : residueSymbol 0 p = 0 := if_pos rfl

theorem cast_emod_toNat (hp : 0 < p) (a : ℤ) : ((a % p).toNat : ZMod p) = a := by
  rw [← Int.cast_natCast, Int.toNat_of_nonneg (Int.emod_nonneg a (by omega)), ZMod.intCast_mod]

theorem emod_toNat_eq_zero_iff (hp : 0 < p) (a : ℤ) : (a % p).toNat = 0 ↔ a % p = 0 := by
  have := Int.emod_nonneg a (show (p : ℤ) ≠ 0 by omega)
  omega

theorem legendre_eq (hp : 0 < p) (a : ℤ) : legendre a p = .ok (residueSymbol (a % p).toNat p) := by
  rw [legendre, if_neg (by omega), Int.fmod_eq_emod_of_nonneg a (by omega)]
  split
  · next h => rw [h, Int.toNat_zero, residueSymbol_zero]
  · rw [if_neg (by omega), Int.toNat_natCast]

theorem sqrt?_eq (hp : 0 < p) (a : ℤ) : sqrt? a p = .ok (sqrtReduced (a % p).toNat p) := by
  rw [sqrt?, if_neg (by omega), Int.fmod_eq_emod_of_nonneg a (by omega)]
  split
  · next h => rw [h, Int.toNat_zero, sqrtReduced, if_pos rfl]
  · rw [if_neg (by omega), Int.toNat_natCast]

/-! ### The search for a non-residue -/

/-- A power of a proper divisor of the modulus is never one. -/
theorem residueSymbol_of_dvd (hp : 3 ≤ p) {d : ℕ} (hd : d ∣ p) (hd1 : d ≠ 1) : residueSymbol d p = -1 := by
  have hd0 : d ≠ 0 := by
    rintro rfl
    have := Nat.eq_zero_of_zero_dvd hd
    omega
  rw [residueSymbol, if_neg hd0, if_neg]
  intro hpow
  rw [pow_eq] at hpow
  have hdvd : d ∣ d ^ ((p - 1) / 2) := dvd_pow_self d (by omega)
  rw [← Nat.div_add_mod (d ^ ((p - 1) / 2)) p, hpow] at hdvd
  exact hd1 (Nat.dvd_one.1 ((Nat.dvd_add_right (hd.mul_right _)).1 hdvd))

theorem isLeast_nonResidueFrom {z limit y : ℕ} (h : nonResidueFrom p z limit = some y) :
    IsLeast {x | z ≤ x ∧ residueSymbol (x % p) p = -1} y := by
  induction limit generalizing z with
  | zero => cases h
  | succ limit ih =>
    rw [nonResidueFrom] at h
    split at h
    · next hz =>
      obtain rfl := Option.some.inj h
      exact ⟨⟨le_rfl, hz⟩, fun x hx => hx.1⟩
    · next hz =>
      obtain ⟨⟨hle, hy⟩, hleast⟩ := ih h
      refine ⟨⟨by omega, hy⟩, fun x hx => hleast ⟨?_, hx.2⟩⟩
      have hne : x ≠ z := by
        rintro rfl
        exact hz hx.2
      have := hx.1
      omega

/-- Modulo a prime there is a non-residue, and modulo a composite number its least divisor counts as one. -/
theorem exists_nonResidueFrom (hp : 3 ≤ p) (hodd : p % 2 = 1) : ∃ z, nonResidueFrom p 2 p = some z := by
  by_cases hprime : p.Prime
  · have := Fact.mk hprime
    obtain ⟨z, hz, -⟩ := exists_nonResidue (p := p) (by omega)
    exact ⟨z, hz⟩
  · have hlt : p.minFac < p := (Nat.not_prime_iff_minFac_lt (by omega)).1 hprime
    have hmin := (Nat.minFac_prime (show p ≠ 1 by omega)).two_le
    have hsymbol : residueSymbol (p.minFac % p) p = -1 := by
      rw [Nat.mod_eq_of_lt hlt]
      exact residueSymbol_of_dvd hp p.minFac_dvd (by omega)
    have hrange : ∃ y, 2 ≤ y ∧ y < 2 + p ∧ residueSymbol (y % p) p = -1 := ⟨p.minFac, hmin, by omega, hsymbol⟩
    obtain ⟨z, hz, -⟩ := nonResidueFrom_spec hrange
    exact ⟨z, hz⟩

/-! ### Answers are square roots -/

/-- The descent keeps `r² = a t`, whatever the orders of `c` and `t` are. -/
theorem descend_sound {a : ZMod p} {m c t r s : ℕ} (h : descend p m c t r = some s) (hr : r < p)
    (heq : (r : ZMod p) ^ 2 = a * t) : s < p ∧ (s : ZMod p) ^ 2 = a := by
  induction m using Nat.strong_induction_on generalizing c t r with
  | _ m ih =>
    rw [descend] at h
    split at h
    · next ht =>
      obtain rfl := Option.some.inj h
      exact ⟨hr, by rw [heq, ht, Nat.cast_one, mul_one]⟩
    · split at h
      · cases h
      · next i _ =>
        refine ih i i.isLt h (Nat.mod_lt _ (by omega)) ?_
        simp only [ZMod.natCast_mod, Nat.cast_mul]
        rw [mul_pow, heq]
        ring

theorem sqrtReduced_sound (hp : 3 ≤ p) (hodd : p % 2 = 1) {a r : ℕ} (h : sqrtReduced a p = some r) :
    r < p ∧ (r : ZMod p) ^ 2 = a := by
  have hlt (b e : ℕ) : pow p b e < p := by
    rw [pow_eq]
    exact Nat.mod_lt _ (by omega)
  rw [sqrtReduced] at h
  split at h
  · next ha =>
    obtain rfl := Option.some.inj h
    exact ⟨by omega, by rw [ha]; simp⟩
  next ha =>
  split at h
  · cases h
  next hsymbol =>
  have hhalf : (a : ZMod p) ^ ((p - 1) / 2) = 1 := by
    rw [not_not, residueSymbol, if_neg ha] at hsymbol
    split at hsymbol
    · next hpow => rw [← cast_pow, hpow, Nat.cast_one]
    · cases hsymbol
  split at h
  · next h4 =>
    obtain rfl := Option.some.inj h
    refine ⟨hlt _ _, ?_⟩
    rw [cast_pow, ← pow_mul, show (p + 1) / 4 * 2 = (p - 1) / 2 + 1 by omega, pow_succ, hhalf, one_mul]
  · obtain ⟨-, hq⟩ := splitTwos_spec (show 0 < p - 1 by omega)
    generalize splitTwos (p - 1) = parts at h hq
    obtain ⟨s, q⟩ := parts
    dsimp only at h hq
    split at h
    · cases h
    · refine descend_sound h (hlt _ _) ?_
      rw [cast_pow, cast_pow, ← pow_mul, show (q + 1) / 2 * 2 = q + 1 by omega, pow_succ, mul_comm]

/-! ### Prime moduli -/

theorem sqrt?_eq_none_iff [Fact p.Prime] (hp2 : p ≠ 2) (a : ℤ) : sqrt? a p = .ok none ↔ ¬IsSquare (a : ZMod p) := by
  have hprime := (Fact.out : p.Prime)
  have hodd := hprime.eq_two_or_odd.resolve_left hp2
  have hp := hprime.two_le
  constructor
  · intro hnone hsquare
    obtain ⟨r, hr, -⟩ := sqrt?_spec hp2 hsquare
    rw [hnone] at hr
    cases hr
  · intro hnot
    rw [sqrt?_eq hprime.pos]
    congr 1
    refine Option.eq_none_iff_forall_ne_some.2 fun r hr => hnot ⟨r, ?_⟩
    rw [← pow_two, (sqrtReduced_sound (by omega) hodd hr).2, cast_emod_toNat hprime.pos]

theorem legendre_eq_legendreSym [Fact p.Prime] (hp2 : p ≠ 2) (a : ℤ) : legendre a p = .ok (legendreSym p a) := by
  have hpos := (Fact.out : p.Prime).pos
  rw [legendre_eq hpos]
  congr 1
  by_cases ha : (a : ZMod p) = 0
  · rw [(legendreSym.eq_zero_iff p a).2 ha]
    rw [ZMod.intCast_zmod_eq_zero_iff_dvd] at ha
    rw [(emod_toNat_eq_zero_iff hpos a).2 (Int.emod_eq_zero_of_dvd ha), residueSymbol_zero]
  · have hcast := cast_emod_toNat hpos a
    obtain ⟨hone, hneg⟩ := residueSymbol_eq hp2 (a := (a % p).toNat) (by rwa [hcast])
    rw [hcast] at hone hneg
    by_cases hsquare : IsSquare (a : ZMod p)
    · rw [hone hsquare, (legendreSym.eq_one_iff p ha).2 hsquare]
    · rw [hneg hsquare, (legendreSym.eq_neg_one_iff p).2 hsquare]

/-- Modulo an odd number the upward search for a non-residue ends, and what is found is a square root. If the number is prime,
then none is missed and the symbol is that of Legendre. -/
theorem sqrt?_sound_complete (hp : 3 ≤ p) (hodd : p % 2 = 1) (a : ℤ) :
    (∃ z, nonResidueFrom p 2 p = some z ∧ IsLeast {y : ℕ | 2 ≤ y ∧ legendre y p = .ok (-1)} z) ∧
      (∃ root, sqrt? a p = .ok root ∧ ∀ r, root = some r → r < p ∧ (r : ℤ) ^ 2 ≡ a [ZMOD p]) ∧
      ∀ hprime : p.Prime,
        (sqrt? a p = .ok none ↔ (a : ZMod p) ≠ 0 ∧ ¬IsSquare (a : ZMod p)) ∧
          legendre a p = .ok (@legendreSym p ⟨hprime⟩ a) := by
  have hpos : 0 < p := by omega
  refine ⟨?_, ⟨_, sqrt?_eq hpos a, fun r hr => ?_⟩, fun hprime => ?_⟩
  · obtain ⟨z, hz⟩ := exists_nonResidueFrom hp hodd
    refine ⟨z, hz, ?_⟩
    simpa only [legendre_eq hpos, ← Int.natCast_emod, Int.toNat_natCast, Except.ok.injEq] using isLeast_nonResidueFrom hz
  · obtain ⟨hlt, hsq⟩ := sqrtReduced_sound hp hodd hr
    refine ⟨hlt, (ZMod.intCast_eq_intCast_iff _ _ _).1 ?_⟩
    rw [Int.cast_pow, Int.cast_natCast, hsq, cast_emod_toNat hpos]
  · have := Fact.mk hprime
    refine ⟨(sqrt?_eq_none_iff (by omega) a).trans ⟨fun h => ⟨fun h0 => h ?_, h⟩, And.right⟩,
      legendre_eq_legendreSym (by omega) a⟩
    rw [h0]
    exact IsSquare.zero

/-- Seventeen is a prime of which three is not a square; `561 = 3 · 11 · 17` passes for a prime to many bases. -/
theorem sqrt?_sound_complete_seventeen :
    sqrt? 3 17 = .ok none ∧ legendre 3 17 = .ok (-1) ∧
      ∃ root, sqrt? 4 561 = .ok root ∧ ∀ r, root = some r → r < 561 ∧ (r : ℤ) ^ 2 ≡ 4 [ZMOD 561] := by
  have hprime : Nat.Prime 17 := by norm_num
  have hthree := (sqrt?_sound_complete (p := 17) (by decide) (by decide) 3).2.2 hprime
  have hsquare : ¬IsSquare (3 : ZMod 17) := by decide
  refine ⟨hthree.1.2 ⟨by decide, hsquare⟩, ?_,
    (sqrt?_sound_complete (p := 561) (by decide) (by decide) 4).2.1⟩
  have := Fact.mk hprime
  rw [← (legendreSym.eq_neg_one_iff 17 (a := 3)).2 hsquare]
  exact hthree.2

end CliffordT.Modular

import CliffordT.Proofs.NormEquation.PrimePart
import CliffordT.Proofs.Number.Factor
import CliffordT.Proofs.Ring.Denominator

/-!
The norm equation is solved, or has no solution, or the budget for factoring runs out.

The parts of a solution for all primes multiply to a number whose squared absolute value is `ξ` up to a totally positive
unit, and such a unit is the square of a power of `λ`. Over `𝔻[ω]` the equation becomes one over `ℤ[ω]`
after both sides are multiplied by an even power of `√2`.
-/

namespace CliffordT

theorem CycloInt.isTotallyNonneg_absSq (t : CycloInt) : t.absSq.isTotallyNonneg = true :=
  (QuadInt.isTotallyNonneg_iff t.absSq).2 ⟨t.absSq_a_nonneg, t.norm_nonneg⟩

namespace NormEquation

open CycloInt

/-! ### The unit that is left over -/

theorem absorbUnit_sound {xi : QuadInt} {t s : CycloInt} (h : absorbUnit xi t = .ok s) : s.absSq = xi := by
  rw [absorbUnit] at h
  split at h
  · cases h
  split at h
  · cases h
  split at h
  · cases h
  · dsimp only at h
    split at h
    · next hfinal =>
      cases h
      rw [conj_mul_self] at hfinal
      exact ofQuad_injective hfinal
    · cases h

/-- A number that has the norm of `ξ` and whose squared absolute value divides `ξ` is corrected to a solution. -/
theorem absorbUnit_spec {xi : QuadInt} (hxi : xi ≠ 0) (hpos : xi.isTotallyNonneg = true) {t : CycloInt}
    (ht : Part xi xi.norm.natAbs t) : ∃ s, absorbUnit xi t = .ok s ∧ s.absSq = xi := by
  have hnonneg : 0 ≤ xi.norm := ((QuadInt.isTotallyNonneg_iff xi).1 hpos).2
  have hnorm : t.absSq.norm = xi.norm := ht.norm.trans (Int.natAbs_of_nonneg hnonneg)
  obtain ⟨unit, hunit⟩ := ht.dvd
  have hne : t.absSq ≠ 0 := by
    intro h
    rw [h, zero_mul] at hunit
    exact hxi hunit
  have hone : unit.norm = 1 := by
    have h := congrArg QuadInt.norm hunit
    rw [QuadInt.norm_mul, hnorm] at h
    exact mul_left_cancel₀ (QuadInt.norm_ne_zero hxi) (by rw [mul_one]; exact h.symm)
  have htotal : unit.isTotallyNonneg = true := by
    -- A multiple of the unit by the positive norm is a product of two totally nonnegative numbers.
    have hmul : xi * t.bullet.absSq = unit * (xi.norm : QuadInt) := by
      rw [absSq_bullet, ← hnorm, ← QuadInt.mul_bullet]
      nth_rewrite 1 [hunit]
      ring
    have h := QuadInt.isTotallyNonneg_mul hpos t.bullet.isTotallyNonneg_absSq
    rw [hmul, QuadInt.isTotallyNonneg_iff, QuadInt.mul_a, QuadInt.intCast_a, QuadInt.intCast_b, mul_zero, mul_zero,
      add_zero] at h
    have hlt : 0 < xi.norm := hnonneg.lt_of_ne (QuadInt.norm_ne_zero hxi).symm
    exact (QuadInt.isTotallyNonneg_iff unit).2 ⟨nonneg_of_mul_nonneg_left h.1 hlt, by rw [hone]; exact zero_le_one⟩
  obtain ⟨m, hm, hsq⟩ := UnitLog.half?_spec hone htotal
  have habs : (t * ofQuad (QuadInt.lambdaPow m)).absSq = xi := by
    rw [absSq_mul, absSq_ofQuad, ← hsq, ← hunit]
  refine ⟨_, ?_, habs⟩
  have hquotient : xi.quotient? t.absSq = some unit :=
    (QuadInt.quotient?_eq_some_iff xi t.absSq unit).2 ⟨hne, by rw [mul_comm, ← hunit]⟩
  simp only [absorbUnit, conj_mul_self, toQuad?_ofQuad, hquotient, hm]
  rw [if_pos (by rw [habs])]

/-! ### The equation over the integers -/

/-- Whether the numbers that factoring the norm of `ξ` gives are primes. -/
def TruePrimes (xi : QuadInt) (effort : ℕ) (w : Words) : Prop :=
  xi.isTotallyNonneg = true → ∀ factors w', Factor.factor xi.norm.natAbs effort w = .ok (factors, w') →
    ∀ pe ∈ factors, pe.1.Prime

theorem solveQuad_sound {xi : QuadInt} {effort : ℕ} {w : Words} {t : CycloInt} (h : solveQuad xi effort w = .ok t) :
    t.absSq = xi := by
  rw [solveQuad] at h
  split at h
  · next hzero =>
    cases h
    rw [hzero, absSq_zero]
  split at h
  · cases h
  match hfactor : Factor.factor xi.norm.natAbs effort w with
  | .error e =>
    rw [hfactor] at h
    cases h
  | .ok (factors, w') =>
    rw [hfactor] at h
    match hparts : primeParts xi factors 1 with
    | .error e =>
      simp only [bind, Except.bind, hparts] at h
      cases h
    | .ok s =>
      simp only [bind, Except.bind, hparts] at h
      exact absorbUnit_sound h

/-- How solving an equation can end if factoring gives primes: with a result, with the finding that there is no solution,
or with factoring giving up. -/
def Settled {T : Type} (solvable : Prop) (factored : Except Failure (List (ℕ × ℕ) × Words))
    (result : Except Failure T) : Prop :=
  ((∃ t, result = .ok t) ∧ solvable) ∨ ((∃ text, result = .error (.notNorm text)) ∧ ¬solvable) ∨
    ∃ text effort, factored = .error (.unfactored text effort) ∧ result = .error (.unfactored text effort)

section

variable {T : Type} {solvable : Prop} {factored : Except Failure (List (ℕ × ℕ) × Words)} {result : Except Failure T}

theorem Settled.refuted (h : Settled solvable factored result) {text : String}
    (hresult : result = .error (.notNorm text)) : ¬solvable := by
  obtain ⟨⟨s, rfl⟩, -⟩ | ⟨-, hno⟩ | ⟨_, _, -, rfl⟩ := h
  · cases hresult
  · exact hno
  · cases hresult

theorem Settled.unbroken (h : Settled solvable factored result) (breach : Breach) :
    result ≠ .error (.broken breach) := by
  obtain ⟨⟨s, rfl⟩, -⟩ | ⟨⟨_, rfl⟩, -⟩ | ⟨_, _, -, rfl⟩ := h <;> exact nofun

theorem Settled.complete (h : Settled solvable factored result) {factors : List (ℕ × ℕ) × Words}
    (hfactored : factored = .ok factors) (hsolvable : solvable) : ∃ s, result = .ok s := by
  obtain ⟨hs, -⟩ | ⟨-, hno⟩ | ⟨_, _, hgave, -⟩ := h
  · exact hs
  · exact absurd hsolvable hno
  · rw [hfactored] at hgave
    cases hgave

end

theorem solveQuad_spec {xi : QuadInt} {effort : ℕ} {w : Words} (h : TruePrimes xi effort w) :
    Settled (∃ t : CycloInt, t.absSq = xi) (Factor.factor xi.norm.natAbs effort w) (solveQuad xi effort w) := by
  rw [solveQuad]
  by_cases hxi : xi = 0
  · rw [if_pos hxi]
    exact .inl ⟨⟨0, rfl⟩, 0, absSq_zero.trans hxi.symm⟩
  rw [if_neg hxi]
  by_cases hpos : xi.isTotallyNonneg = true
  · rw [if_neg (by simp [hpos])]
    have hn : 0 < xi.norm.natAbs := Int.natAbs_pos.2 (QuadInt.norm_ne_zero hxi)
    obtain ⟨factors, w', hfactor, hfact⟩ | ⟨text, hfactor⟩ := Factor.factor_spec hn effort w
    · have hprime := h hpos factors w' hfactor
      have hexact : ∀ pe ∈ factors, (pe.1 : ℤ) ^ pe.2 ∣ xi.norm ∧ ¬(pe.1 : ℤ) ^ (pe.2 + 1) ∣ xi.norm := by
        intro pe hpe
        rw [← Int.natCast_pow, ← Int.natCast_pow, Int.natCast_dvd, Int.natCast_dvd]
        exact hfact.exact hprime hpe
      rw [hfactor]
      obtain ⟨s, hparts, hpart⟩ | ⟨hnone, hno⟩ := primeParts_spec hprime hexact hfact.sorted 1
      · rw [hfact.prod_eq] at hpart
        obtain ⟨t, ht, habs⟩ := absorbUnit_spec hxi hpos hpart
        refine .inl ⟨⟨t, ?_⟩, t, habs⟩
        simp only [bind, Except.bind, hparts, one_mul]
        exact ht
      · refine .inr (.inl ⟨⟨toString xi, ?_⟩, fun ⟨t, ht⟩ => hno t ht⟩)
        simp only [bind, Except.bind, hnone]
    · rw [hfactor]
      exact .inr (.inr ⟨text, effort, rfl, rfl⟩)
  · rw [if_pos (by simp [hpos])]
    refine .inr (.inl ⟨⟨_, rfl⟩, fun ⟨t, ht⟩ => hpos ?_⟩)
    rw [← ht]
    exact t.isTotallyNonneg_absSq

/-! ### The equation over the fractions -/

section

open Exponent

variable {E : Type} [Exponent E]

/-- The product of a fraction with the least even power of `√2` that makes it an integer. -/
def integral (xi : QuadFrac E) : QuadInt :=
  if load xi.reduce.exp % 2 = 0 then xi.reduce.num else xi.reduce.num.timesRoot

/-- Half the exponent of the power of `√2` in `integral`. -/
def halfExp (xi : QuadFrac E) : ℕ := (load xi.reduce.exp + 1) / 2

/-- What is stored for half that exponent. -/
def storedHalf (xi : QuadFrac E) : E :=
  store (if load xi.reduce.exp % 2 = 0 then load xi.reduce.exp / 2 else load (next xi.reduce.exp) / 2)

theorem solveFrac_eq (xi : QuadFrac E) (effort : ℕ) (w : Words) :
    solveFrac xi effort w =
      (solveQuad (integral xi) effort w).map fun t => RootFrac.reduce ⟨t, storedHalf xi⟩ := by
  rw [solveFrac, integral, storedHalf]
  split
  · cases solveQuad xi.reduce.num effort w <;> rfl
  · cases solveQuad xi.reduce.num.timesRoot effort w <;> rfl

/-- Twice what is stored is the exponent of the power of `√2`, unless it is odd and the next one cannot be stored. -/
theorem two_mul_load_storedHalf_eq_iff (xi : QuadFrac E) :
    2 * load (storedHalf xi) = 2 * halfExp xi ↔ load xi.reduce.exp % 2 = 0 ∨ Stores E (load xi.reduce.exp + 1) := by
  have hparity : load (next xi.reduce.exp) % 2 = (load xi.reduce.exp + 1) % 2 := load_store_mod_two _
  rw [storedHalf, halfExp]
  split
  · next heven =>
    have : Stores E (load xi.reduce.exp / 2) :=
      Stores.of_le (inferInstance : Stores E (load xi.reduce.exp)) (Nat.div_le_self _ _)
    rw [load_store]
    exact iff_of_true (by omega) (.inl heven)
  · next hodd =>
    have : Stores E (load (next xi.reduce.exp) / 2) :=
      Stores.of_le (inferInstance : Stores E (load (next xi.reduce.exp))) (Nat.div_le_self _ _)
    rw [load_store, or_iff_right hodd]
    constructor
    · intro h
      exact ⟨show load (next xi.reduce.exp) = _ by omega⟩
    · intro h
      rw [load_next]

/-- Twice what is stored can be stored as well. -/
theorem stores_two_mul_storedHalf (xi : QuadFrac E) : Stores E (2 * load (storedHalf xi)) := by
  have hle := load_store_le (E := E)
    (if load xi.reduce.exp % 2 = 0 then load xi.reduce.exp / 2 else load (next xi.reduce.exp) / 2)
  rw [← storedHalf] at hle
  split at hle
  · exact Stores.of_le (inferInstance : Stores E (load xi.reduce.exp)) (by omega)
  · exact Stores.of_le (inferInstance : Stores E (load (next xi.reduce.exp))) (by omega)

theorem load_storedHalf_le (xi : QuadFrac E) : load (storedHalf xi) ≤ (load xi.reduce.exp + 1) / 2 := by
  refine (load_store_le _).trans ?_
  split
  · omega
  · exact Nat.div_le_div_right (load_store_le _)

theorem value_integral (xi : QuadFrac E) : NumberRing.value (integral xi) = xi.value * sqrtTwo ^ (2 * halfExp xi) := by
  rw [← RootFrac.value_reduce xi, RootFrac.value, div_mul_eq_mul_div, eq_div_iff (by simp), integral, halfExp]
  split
  · next heven => rw [show 2 * ((load xi.reduce.exp + 1) / 2) = load xi.reduce.exp by omega]
  · next hodd =>
    rw [show 2 * ((load xi.reduce.exp + 1) / 2) = load xi.reduce.exp + 1 by omega, pow_succ']
    have h := NumberRing.value_timesRoot xi.reduce.num
    rw [show RootTwoRing.timesRoot xi.reduce.num = xi.reduce.num.timesRoot from rfl] at h
    rw [h, mul_assoc]

theorem integral_ne_zero {xi : QuadFrac E} (h : load xi.reduce.exp % 2 ≠ 0) : integral xi ≠ 0 := by
  have hnum : xi.num ≠ 0 := by
    rintro hnum
    rw [RootFrac.reduce, if_pos hnum] at h
    exact h (by rw [show (0 : QuadFrac E).exp = zero from rfl, load_zero])
  intro hzero
  have hvalue := value_integral xi
  rw [hzero, NumberRing.value_zero, eq_comm, mul_eq_zero, or_iff_left (by simp), ← RootFrac.isZero_iff, RootFrac.isZero,
    decide_eq_true_eq] at hvalue
  exact hnum hvalue

/-- The squared absolute value of what is returned for a solution of the integral equation. -/
theorem value_absSq_storedHalf (xi : QuadFrac E) (t : CycloInt) :
    (CycloFrac.absSq (RootFrac.reduce ⟨t, storedHalf xi⟩)).value =
      NumberRing.value t.absSq / sqrtTwo ^ (2 * load (storedHalf xi)) := by
  have hstored := stores_two_mul_storedHalf xi
  have hle : load (RootFrac.reduce (⟨t, storedHalf xi⟩ : CycloFrac E)).exp ≤ load (storedHalf xi) := RootFrac.load_reduce_le _
  have : Stores E (2 * load (RootFrac.reduce (⟨t, storedHalf xi⟩ : CycloFrac E)).exp) := hstored.of_le (by omega)
  rw [CycloFrac.value_absSq, RootFrac.value_reduce, ← CycloFrac.value_absSq, CycloFrac.absSq, RootFrac.value_mk, load_store]

/-- A number with the half exponent solves the equation exactly when its numerator solves the integral one. -/
theorem value_absSq_eq_iff (xi : QuadFrac E) (t : CycloInt) :
    NumberRing.value t.absSq / sqrtTwo ^ (2 * halfExp xi) = xi.value ↔ t.absSq = integral xi := by
  rw [div_eq_iff (by simp), ← value_integral]
  exact NumberRing.value_injective.eq_iff

/-- The equation has a solution among the fractions exactly when the integral one has a solution. -/
theorem exists_conj_mul_eq_iff (xi : QuadFrac E) :
    (∃ t : CycloFrac ℕ, (CycloFrac.conj t * t).value = xi.value) ↔ ∃ t : CycloInt, t.absSq = integral xi := by
  have hsq (t : CycloFrac ℕ) : (CycloFrac.conj t * t).value = (CycloFrac.absSq t).value := by
    rw [RootFrac.value_mul, CycloFrac.value_conj, CycloFrac.value_absSq, mul_comm]
  simp only [hsq]
  constructor
  · rintro ⟨t, ht⟩
    have hcleared := (cleared_iff_absSq t (2 * halfExp xi)).2 ⟨integral xi, by rw [ht, value_integral]⟩
    obtain ⟨x, hx⟩ := (cleared_two_mul_iff t.value (halfExp xi)).1 hcleared
    refine ⟨x, (value_absSq_eq_iff xi x).1 ?_⟩
    have hvalue : t.value = (⟨x, halfExp xi⟩ : CycloFrac ℕ).value := by
      rw [RootFrac.value_mk x, value_eq x, ← hx, load_nat, mul_div_cancel_right₀ _ (by simp)]
    rw [← ht, CycloFrac.value_absSq, hvalue, ← CycloFrac.value_absSq, CycloFrac.absSq, RootFrac.value_mk, load_store, load_nat]
  · rintro ⟨t, ht⟩
    refine ⟨⟨t, halfExp xi⟩, ?_⟩
    rw [CycloFrac.absSq, RootFrac.value_mk, load_store, load_nat]
    exact (value_absSq_eq_iff xi t).2 ht

/-- What is returned solves the equation exactly if the exponent that belongs to it can be stored. -/
theorem same_iff_of_solveFrac {xi : QuadFrac E} {effort : ℕ} {w : Words} {t : CycloFrac E}
    (h : solveFrac xi effort w = .ok t) :
    (CycloFrac.absSq t).same xi = true ↔ load xi.reduce.exp % 2 = 0 ∨ Stores E (load xi.reduce.exp + 1) := by
  rw [solveFrac_eq] at h
  match hquad : solveQuad (integral xi) effort w with
  | .error e =>
    rw [hquad] at h
    cases h
  | .ok s =>
    rw [hquad] at h
    cases h
    have hs := solveQuad_sound hquad
    have hexact := (value_absSq_eq_iff xi s).2 hs
    rw [RootFrac.same_iff, value_absSq_storedHalf, ← two_mul_load_storedHalf_eq_iff]
    constructor
    · intro hsame
      by_contra hne
      -- with an odd exponent the numerator is not zero, so different powers of `√2` give different numbers
      have hodd : load xi.reduce.exp % 2 ≠ 0 := fun heven => hne ((two_mul_load_storedHalf_eq_iff xi).2 (.inl heven))
      have hnum : NumberRing.value s.absSq ≠ 0 := by
        rw [hs, ← NumberRing.value_zero (R := QuadInt)]
        exact NumberRing.value_injective.ne (integral_ne_zero hodd)
      rw [← hexact, div_eq_div_iff (by simp) (by simp), mul_right_inj' hnum] at hsame
      exact hne (sqrtTwo_pow_injective hsame).symm
    · intro hexp
      rw [hexp, hexact]

/-- The exponent of a solution is at most half of that of the equation, rounded up. -/
theorem two_mul_exp_le_of_solveFrac {xi : QuadFrac E} {effort : ℕ} {w : Words} {t : CycloFrac E}
    (h : solveFrac xi effort w = .ok t) : 2 * load t.exp ≤ load xi.exp + 1 := by
  rw [solveFrac_eq] at h
  match hquad : solveQuad (integral xi) effort w with
  | .error e =>
    rw [hquad] at h
    cases h
  | .ok s =>
    rw [hquad] at h
    cases h
    have hxi := RootFrac.load_reduce_le xi
    have hhalf := load_storedHalf_le xi
    have ht : load (RootFrac.reduce (⟨s, storedHalf xi⟩ : CycloFrac E)).exp ≤ load (storedHalf xi) :=
      RootFrac.load_reduce_le _
    change 2 * load (RootFrac.reduce (⟨s, storedHalf xi⟩ : CycloFrac E)).exp ≤ _
    omega

theorem solveFrac_spec {xi : QuadFrac E} {effort : ℕ} {w : Words} (h : TruePrimes (integral xi) effort w) :
    Settled (∃ t : CycloFrac ℕ, (CycloFrac.conj t * t).value = xi.value)
      (Factor.factor (integral xi).norm.natAbs effort w) (solveFrac xi effort w) := by
  rw [solveFrac_eq, exists_conj_mul_eq_iff]
  obtain ⟨⟨t, hsolve⟩, hsolvable⟩ | ⟨⟨text, hsolve⟩, hno⟩ | ⟨text, effort, hgave, hsolve⟩ := solveQuad_spec h
  · rw [hsolve]
    exact .inl ⟨⟨_, rfl⟩, hsolvable⟩
  · rw [hsolve]
    exact .inr (.inl ⟨⟨text, rfl⟩, hno⟩)
  · rw [hsolve]
    exact .inr (.inr ⟨text, effort, hgave, rfl⟩)

end

theorem conj_mul_eq_iff (xi : QuadInt) (t : CycloInt) : t.conj * t = ofQuad xi ↔ t.absSq = xi := by
  rw [conj_mul_self, ofQuad_injective.eq_iff]

/-- Both solvers are sound, the one over the fractions exactly as long as the exponent that belongs to a solution can be stored. If
factoring gives primes, they find no solution only if there is none, their own checks do not fail, and an equation that has a
solution is solved as soon as its norm is factored. -/
theorem solve_sound_complete (E : Type) [Exponent E] (effort : ℕ) (w : Words) :
    (∀ xi : QuadFrac E,
      (∀ t, solveFrac xi effort w = .ok t → ((CycloFrac.absSq t).same xi = true ↔
        Exponent.load xi.reduce.exp % 2 = 0 ∨ Exponent.Stores E (Exponent.load xi.reduce.exp + 1))) ∧
      (TruePrimes (integral xi) effort w →
        (∀ text, solveFrac xi effort w = .error (.notNorm text) →
          ¬∃ t : CycloFrac ℕ, (CycloFrac.conj t * t).value = xi.value) ∧
        (∀ breach, solveFrac xi effort w ≠ .error (.broken breach)) ∧
        ∀ factors, Factor.factor (integral xi).norm.natAbs effort w = .ok factors →
          (∃ t : CycloFrac ℕ, (CycloFrac.conj t * t).value = xi.value) → ∃ t, solveFrac xi effort w = .ok t)) ∧
    ∀ xi : QuadInt,
      (∀ t, solveQuad xi effort w = .ok t → t.absSq = xi) ∧
      (TruePrimes xi effort w →
        (∀ text, solveQuad xi effort w = .error (.notNorm text) → ¬∃ t : CycloInt, t.conj * t = ofQuad xi) ∧
        (∀ breach, solveQuad xi effort w ≠ .error (.broken breach)) ∧
        ∀ factors, Factor.factor xi.norm.natAbs effort w = .ok factors →
          (∃ t : CycloInt, t.conj * t = ofQuad xi) → ∃ t, solveQuad xi effort w = .ok t) := by
  constructor
  · intro xi
    refine ⟨fun t => same_iff_of_solveFrac, fun hprimes => ?_⟩
    have hspec := solveFrac_spec hprimes
    exact ⟨fun _ => hspec.refuted, hspec.unbroken, fun _ => hspec.complete⟩
  · intro xi
    refine ⟨fun t => solveQuad_sound, fun hprimes => ?_⟩
    have hspec := solveQuad_spec hprimes
    simp only [conj_mul_eq_iff]
    exact ⟨fun _ => hspec.refuted, hspec.unbroken, fun _ => hspec.complete⟩

/-- The number `(1 + 3√2) / √2` is a squared absolute value and `3 + √2` is none. What is returned for
`(-1 + √2) / √2^(2^32 - 1)` is no solution. -/
theorem solve_sound_complete_two_norms :
    TruePrimes (integral (⟨⟨1, 3⟩, 1⟩ : QuadFrac)) 1 (Words.ofSeed 1) ∧
      (∃ t, solveFrac (⟨⟨1, 3⟩, 1⟩ : QuadFrac) 1 (Words.ofSeed 1) = .ok t) ∧
      TruePrimes ⟨3, 1⟩ 1 (Words.ofSeed 1) ∧ (¬∃ t : CycloInt, t.conj * t = ofQuad ⟨3, 1⟩) ∧
      ∃ t, solveFrac (⟨⟨-1, 1⟩, 4294967295⟩ : QuadFrac) 1 (Words.ofSeed 1) = .ok t ∧
        (CycloFrac.absSq t).same (⟨⟨-1, 1⟩, 4294967295⟩ : QuadFrac) ≠ true := by
  obtain ⟨hfrac, hquad⟩ := solve_sound_complete UInt32 1 (Words.ofSeed 1)
  have h34 : Factor.factor (integral (⟨⟨1, 3⟩, 1⟩ : QuadFrac)).norm.natAbs 1 (Words.ofSeed 1) =
      .ok ([(2, 1), (17, 1)], Words.ofSeed 1) := by
    rw [show (integral (⟨⟨1, 3⟩, 1⟩ : QuadFrac)).norm.natAbs = 34 by decide,
      Factor.factor_of_trialDivide (by decide) (show _ = ([2, 17], 1) by decide +kernel)]
    simp [List.mergeSort, Factor.runs]
  have h7 : Factor.factor (QuadInt.norm ⟨3, 1⟩).natAbs 1 (Words.ofSeed 1) = .ok ([(7, 1)], Words.ofSeed 1) := by
    rw [show (QuadInt.norm ⟨3, 1⟩).natAbs = 7 by decide,
      Factor.factor_of_trialDivide (by decide) (show _ = ([7], 1) by decide +kernel)]
    simp [Factor.runs]
  have hprimes : TruePrimes (integral (⟨⟨1, 3⟩, 1⟩ : QuadFrac)) 1 (Words.ofSeed 1) := by
    rintro - factors w' hfactor
    rw [h34] at hfactor
    cases hfactor
    norm_num
  have hprimes' : TruePrimes ⟨3, 1⟩ 1 (Words.ofSeed 1) := by
    rintro - factors w' hfactor
    rw [h7] at hfactor
    cases hfactor
    norm_num
  have hsolution : ((CycloFrac.conj ⟨⟨2, 0, 1, -1⟩, 1⟩ * ⟨⟨2, 0, 1, -1⟩, 1⟩ : CycloFrac ℕ)).value =
      (⟨⟨1, 3⟩, 1⟩ : QuadFrac).value := by
    have hsame : (CycloFrac.conj ⟨⟨2, 0, 1, -1⟩, 1⟩ * ⟨⟨2, 0, 1, -1⟩, 1⟩ : CycloFrac ℕ).same
        (CycloFrac.ofReal ⟨⟨1, 3⟩, 1⟩) = true := by decide
    rw [RootFrac.same_iff, CycloFrac.value_ofReal] at hsame
    exact hsame
  have hnone : solveQuad ⟨3, 1⟩ 1 (Words.ofSeed 1) = .error (.notNorm (toString (⟨3, 1⟩ : QuadInt))) := by
    rw [solveQuad, h7]
    decide +kernel
  have h2 : Factor.factor (QuadInt.norm ⟨2, -1⟩).natAbs 1 (Words.ofSeed 1) = .ok ([(2, 1)], Words.ofSeed 1) := by
    rw [show (QuadInt.norm ⟨2, -1⟩).natAbs = 2 by decide,
      Factor.factor_of_trialDivide (by decide) (show _ = ([2], 1) by decide +kernel)]
    simp [Factor.runs]
  have hsmallest : solveQuad ⟨2, -1⟩ 1 (Words.ofSeed 1) = .ok ⟨1, -1, 0, 0⟩ := by
    rw [solveQuad, h2]
    decide +kernel
  obtain ⟨t, ht⟩ : ∃ t, solveFrac (⟨⟨-1, 1⟩, 4294967295⟩ : QuadFrac) 1 (Words.ofSeed 1) = .ok t := by
    rw [solveFrac_eq, show integral (⟨⟨-1, 1⟩, 4294967295⟩ : QuadFrac) = ⟨2, -1⟩ by decide +kernel, hsmallest]
    exact ⟨_, rfl⟩
  have hwrong : (CycloFrac.absSq t).same (⟨⟨-1, 1⟩, 4294967295⟩ : QuadFrac) ≠ true := by
    rw [Ne, (hfrac _).1 t ht, Exponent.stores_word_iff]
    decide +kernel
  exact ⟨hprimes, ((hfrac _).2 hprimes).2.2 _ h34 ⟨_, hsolution⟩, hprimes', ((hquad _).2 hprimes').1 _ hnone, t, ht, hwrong⟩

end NormEquation

end CliffordT

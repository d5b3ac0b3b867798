import CliffordT.Proofs.NormEquation.Solve
import CliffordT.Proofs.Text.Numeral

/-!
Only composite numbers are given up on.

No prime fails the primality test, so the rho method is asked for divisors of composite numbers alone: a factorisation comes out the
same whatever the method does with a prime. The number reported when a budget is used up is one it was asked about. The norm equation
fails in this way only where its factorisation does.
-/

namespace CliffordT

namespace Factor

/-! ### The numbers that are split -/

/-- Two numbers are split one after the other. -/
def inTurn (first : Except Failure (List ℕ × Words)) (second : Words → Except Failure (List ℕ × Words)) :
    Except Failure (List ℕ × Words) :=
  match first with
  | .error e => .error e
  | .ok (left, w) =>
    match second w with
    | .error e => .error e
    | .ok (right, w) => .ok (left ++ right, w)

/-- Splitting with any method in the place of rho; with rho itself it is `split`. -/
def splitBy (method : ℕ → ℕ → Words → Option ℕ × Words) (effort m : ℕ) (w : Words) :
    Except Failure (List ℕ × Words) :=
  if m ≤ 1 then .ok ([], w)
  else if m < trialBound * trialBound then .ok ([m], w)
  else
    let (prime, w) := Prime.isProbable m w
    if prime then .ok ([m], w)
    else
      let root := natRoot m
      if root < m ∧ root * root = m then
        inTurn (splitBy method effort root w) fun w => splitBy method effort root w
      else
        match method m effort w with
        | (none, _) => .error (.unfactored (Numeral.ofNat m) effort)
        | (some d, w) =>
          if _h : d < m ∧ m / d < m then
            inTurn (splitBy method effort d w) fun w => splitBy method effort (m / d) w
          else .error (.unfactored (Numeral.ofNat m) effort)
termination_by m
decreasing_by all_goals omega

/-- Factoring with any method in the place of rho; with rho itself it is `factor`. -/
def factorBy (method : ℕ → ℕ → Words → Option ℕ × Words) (n : ℤ) (effort : ℕ) (w : Words) :
    Except Failure (List (ℕ × ℕ) × Words) :=
  if n ≤ 0 then .error (.broken (.nonPositive n))
  else
    let (small, rest) := trialDivide smallPrimes n.toNat
    (splitBy method effort rest w).map fun (large, w) => (runs ((small ++ large).mergeSort (· ≤ ·)), w)

/-- The method agrees with rho on the composite numbers; on primes it may do anything. -/
def AgreesOnComposites (method : ℕ → ℕ → Words → Option ℕ × Words) : Prop :=
  ∀ c budget w, 1 < c → ¬c.Prime → method c budget w = Rho.divisor? c budget w

section

variable {method : ℕ → ℕ → Words → Option ℕ × Words}

theorem splitBy_eq_split (h : AgreesOnComposites method) (effort m : ℕ) (w : Words) :
    splitBy method effort m w = split effort m w := by
  -- The method is asked only after the test has failed, and then the number is composite.
  induction m using Nat.strong_induction_on generalizing w with
  | _ m ih =>
    rw [splitBy, split]
    by_cases hone : m ≤ 1
    · rw [if_pos hone, if_pos hone]
    by_cases htrial : m < trialBound * trialBound
    · rw [if_neg hone, if_neg hone, if_pos htrial, if_pos htrial]
    rw [if_neg hone, if_neg hone, if_neg htrial, if_neg htrial]
    have hprime := fun h : m.Prime => Prime.isProbable_of_prime h w
    generalize Prime.isProbable m w = test at hprime ⊢
    obtain ⟨prime, w₁⟩ := test
    dsimp only at hprime ⊢
    cases prime with
    | true => rfl
    | false =>
      rw [if_neg Bool.false_ne_true, if_neg Bool.false_ne_true]
      by_cases hroot : natRoot m < m ∧ natRoot m * natRoot m = m
      · rw [if_pos hroot, if_pos hroot]
        simp only [ih (natRoot m) hroot.1]
        rfl
      · rw [if_neg hroot, if_neg hroot, h m effort w₁ (by omega) fun hm => Bool.false_ne_true (hprime hm)]
        generalize Rho.divisor? m effort w₁ = found
        obtain ⟨_ | d, w₂⟩ := found
        · rfl
        dsimp only
        by_cases hsmaller : d < m ∧ m / d < m
        · rw [dif_pos hsmaller, dif_pos hsmaller]
          simp only [ih d hsmaller.1, ih (m / d) hsmaller.2]
          rfl
        · rw [dif_neg hsmaller, dif_neg hsmaller]

theorem factorBy_eq_factor (h : AgreesOnComposites method) (n : ℤ) (effort : ℕ) (w : Words) :
    factorBy method n effort w = factor n effort w := by
  rw [factorBy, factor]
  split
  · rfl
  · dsimp only
    rw [splitBy_eq_split h]
    cases split effort (trialDivide smallPrimes n.toNat).2 w with
    | error e => rfl
    | ok found => rfl

end

/-! ### The numbers that are reported -/

/-- The text is the numeral of a composite divisor of a number, and of nothing else. -/
def NamesComposite (text : String) (n : ℤ) : Prop :=
  ∃ c : ℕ, 1 < c ∧ ¬c.Prime ∧ (c : ℤ) ∣ n ∧ ∀ b, text = Numeral.ofNat b ↔ b = c

theorem namesComposite_of_factor {n : ℤ} {effort budget : ℕ} {w : Words} {text : String}
    (h : factor n effort w = .error (.unfactored text budget)) : NamesComposite text n ∧ budget = effort := by
  obtain hn | hn := le_or_gt n 0
  · rw [factor, if_pos hn] at h
    cases h
  obtain ⟨m, rfl⟩ := Int.eq_ofNat_of_zero_le hn.le
  obtain ⟨factors, w', hfactor, -⟩ | ⟨c, hfactor, hdvd, hone, hprime, -⟩ := factor_cases (Int.natCast_pos.1 hn) effort w
  · rw [hfactor] at h
    cases h
  · rw [hfactor] at h
    cases h
    refine ⟨⟨c, hone, hprime, Int.natCast_dvd_natCast.2 hdvd, fun b => ?_⟩, rfl⟩
    rw [Numeral.ofNat_injective.eq_iff, eq_comm]

end Factor

namespace NormEquation

/-! ### The norm equation -/

/-- A result other than the report of a budget that is used up. -/
def Resolved {T : Type} (result : Except Failure T) : Prop :=
  ∀ text budget, result ≠ .error (.unfactored text budget)

section

variable {S T : Type}

theorem Resolved.ok (a : T) : Resolved (.ok a) := by
  intro text budget h
  cases h

theorem Resolved.broken (breach : Breach) : Resolved (.error (.broken breach) : Except Failure T) := by
  intro text budget h
  cases h

theorem Resolved.notNorm (value : String) : Resolved (.error (.notNorm value) : Except Failure T) := by
  intro text budget h
  cases h

theorem Resolved.undefined : Resolved (.error .undefined : Except Failure T) := by
  intro text budget h
  cases h

theorem Resolved.bind {x : Except Failure S} {f : S → Except Failure T} (hx : Resolved x) (hf : ∀ a, Resolved (f a)) :
    Resolved (x >>= f) := by
  cases x with
  | error e =>
    intro text budget h
    cases h
    exact hx text budget rfl
  | ok a => exact hf a

theorem Resolved.ite {p : Prop} [Decidable p] {x y : Except Failure T} (hx : Resolved x) (hy : Resolved y) :
    Resolved (if p then x else y) := by
  split
  · exact hx
  · exact hy

end

theorem resolved_root (a : ℤ) (p : ℕ) (absent : Breach) : Resolved (PrimeAbove.root a p absent) := by
  refine .bind ?_ fun r => ?_
  · rw [Modular.sqrt?]
    exact .ite .undefined (.ite (.ok _) (.ite .undefined (.ok _)))
  · cases r with
    | none => exact .broken absent
    | some r => exact .ok r

theorem resolved_gcdOfNorm (a b : CycloInt) (norm : ℤ) : Resolved (a.gcdOfNorm b norm) := by
  rw [CycloInt.gcdOfNorm]
  split
  · exact .ok _
  · exact .broken _

theorem resolved_quad (p : ℕ) : Resolved (PrimeAbove.quad p) :=
  .bind (resolved_root 2 p _) fun _ => .ite (.ok _) (.broken _)

theorem resolved_inert (p : ℕ) : Resolved (PrimeAbove.inert p) := by
  have hgcd (witness : CycloInt) := resolved_gcdOfNorm (CycloInt.ofInt p) witness ((p : ℤ) * p)
  rw [PrimeAbove.inert]
  refine .ite ?_ ?_
  · exact .bind (resolved_root (-1) p _) fun u => hgcd _
  · exact .bind (resolved_root (-2) p _) fun u => hgcd _

theorem resolved_split (eta : QuadInt) (p : ℕ) : Resolved (PrimeAbove.split eta p) :=
  .bind (resolved_root (-1) p _) fun _ => resolved_gcdOfNorm _ _ _

theorem resolved_primePart (xi : QuadInt) (p e : ℕ) : Resolved (primePart xi p e) := by
  rw [primePart]
  refine .ite (.ok _) (.ite (.ite (.broken _) (.bind (resolved_inert p) fun _ => .ok _)) ?_)
  refine .bind (resolved_quad p) fun eta => .ite (.broken _) (.ite (.ite (.notNorm _) (.ok _)) ?_)
  exact .bind (resolved_split eta p) fun _ => .ok _

theorem resolved_primeParts (xi : QuadInt) (factors : List (ℕ × ℕ)) (t : CycloInt) :
    Resolved (primeParts xi factors t) := by
  induction factors generalizing t with
  | nil => exact .ok t
  | cons pe rest ih => exact .bind (resolved_primePart xi pe.1 pe.2) fun s => ih (t * s)

theorem resolved_absorbUnit (xi : QuadInt) (t : CycloInt) : Resolved (absorbUnit xi t) := by
  rw [absorbUnit]
  split
  · exact .broken _
  split
  · exact .broken _
  split
  · exact .notNorm _
  · exact .ite (.ok _) (.broken _)

/-- The equation gives up only where the factorisation of the norm does. -/
theorem factor_of_solveQuad {xi : QuadInt} {effort budget : ℕ} {w : Words} {text : String}
    (h : solveQuad xi effort w = .error (.unfactored text budget)) :
    Factor.factor xi.norm.natAbs effort w = .error (.unfactored text budget) := by
  rw [solveQuad] at h
  split at h
  · cases h
  split at h
  · cases h
  cases hfactor : Factor.factor xi.norm.natAbs effort w with
  | error e =>
    rw [hfactor] at h
    cases h
    rfl
  | ok factors =>
    rw [hfactor] at h
    have hrest := Resolved.bind (resolved_primeParts xi factors.1 1) fun t => resolved_absorbUnit xi t
    exact absurd h (hrest text budget)

theorem namesComposite_of_solveQuad {xi : QuadInt} {effort budget : ℕ} {w : Words} {text : String}
    (h : solveQuad xi effort w = .error (.unfactored text budget)) :
    Factor.NamesComposite text xi.norm ∧ budget = effort := by
  obtain ⟨⟨c, hone, hprime, hdvd, htext⟩, hbudget⟩ := Factor.namesComposite_of_factor (factor_of_solveQuad h)
  exact ⟨⟨c, hone, hprime, Int.dvd_natAbs.1 hdvd, htext⟩, hbudget⟩

theorem namesComposite_of_solveFrac {E : Type} [Exponent E] {xi : QuadFrac E} {effort budget : ℕ} {w : Words} {text : String}
    (h : solveFrac xi effort w = .error (.unfactored text budget)) :
    Factor.NamesComposite text (integral xi).norm ∧ budget = effort := by
  rw [solveFrac_eq] at h
  cases hsolve : solveQuad (integral xi) effort w with
  | error e =>
    rw [hsolve] at h
    cases h
    exact namesComposite_of_solveQuad hsolve
  | ok t =>
    rw [hsolve] at h
    cases h

end NormEquation

open Factor NormEquation

/-- A prime passes the test, whatever its size and the random words. So a factorisation asks the rho method about composite numbers
alone: its result stays the same if the method is changed on primes. When a budget is used up, the number reported is a composite
divisor of the number factored, for the norm equation a divisor of the norm. -/
theorem primes_pass_and_composites_given_up :
    (∀ (p : ℕ) (w : Words), p.Prime → (Prime.isProbable p w).1 = true) ∧
      (∀ method, AgreesOnComposites method → ∀ n effort w, factorBy method n effort w = factor n effort w) ∧
      (∀ n effort w text budget, factor n effort w = .error (.unfactored text budget) →
        NamesComposite text n ∧ budget = effort) ∧
      (∀ xi effort w text budget, solveQuad xi effort w = .error (.unfactored text budget) →
        NamesComposite text xi.norm ∧ budget = effort) ∧
      ∀ (E : Type) [Exponent E] (xi : QuadFrac E) effort w text budget,
        solveFrac xi effort w = .error (.unfactored text budget) →
          NamesComposite text (integral xi).norm ∧ budget = effort :=
  ⟨fun _ w hp => Prime.isProbable_of_prime hp w, fun _ h => factorBy_eq_factor h, fun _ _ _ _ _ => namesComposite_of_factor,
    fun _ _ _ _ _ => namesComposite_of_solveQuad, fun _ _ _ _ _ _ _ => namesComposite_of_solveFrac⟩

/-- The Mersenne prime of 127 bits passes with any random words, and a method that finds a divisor of every prime does not change how
60 is factored. Without a budget the product of the primes 1031 and 1033 is given up, and so is the equation for `1049 + 133√2`, of which
it is the norm. -/
theorem primes_pass_and_composites_given_up_mersenne :
    (∀ w, (Prime.isProbable (mersenne 127 : ℕ) w).1 = true) ∧
      (∀ effort w, factorBy (fun c budget w => if c.Prime then (some 1, w) else Rho.divisor? c budget w) 60 effort w =
        factor 60 effort w) ∧
      ∃ text, factor (1031 * 1033) 0 (Words.ofSeed 1) = .error (.unfactored text 0) ∧
        solveQuad ⟨1049, 133⟩ 0 (Words.ofSeed 1) = .error (.unfactored text 0) ∧ NamesComposite text (1031 * 1033) := by
  have hprime : (mersenne 127).Prime := lucas_lehmer_sufficiency _ (by norm_num) (by norm_num)
  have hfails : (factor (1031 * 1033 : ℕ) 0 (Words.ofSeed 1)).isOk = false := by
    have htrial := trialDivide_mul (show Nat.Prime 1031 by norm_num) (show Nat.Prime 1033 by norm_num) (by decide) (by decide)
    rw [factor, if_neg (by norm_num), Int.toNat_natCast, htrial]
    decide +kernel
  obtain ⟨hpass, hagree, hfactor, hquad, -⟩ := primes_pass_and_composites_given_up
  refine ⟨fun w => hpass _ w hprime, fun effort w => ?_, ?_⟩
  · exact hagree _ (fun c budget w _ hc => if_neg hc) 60 effort w
  · obtain ⟨_, _, hok, -⟩ | ⟨text, herror⟩ := factor_spec (show 0 < 1031 * 1033 by norm_num) 0 (Words.ofSeed 1)
    · rw [hok] at hfails
      cases hfails
    · have hsolve : solveQuad ⟨1049, 133⟩ 0 (Words.ofSeed 1) = .error (.unfactored text 0) := by
        have hnorm : (⟨1049, 133⟩ : QuadInt).norm.natAbs = 1031 * 1033 := by decide
        rw [solveQuad, if_neg (by decide), if_neg (by decide), hnorm, herror]
        rfl
      exact ⟨text, herror, hsolve, (hquad _ _ _ _ _ hsolve).1⟩

end CliffordT

import Mathlib
import CliffordT.Number.Factor
import CliffordT.Proofs.Number.Bits
import CliffordT.Proofs.Number.Prime
import CliffordT.Proofs.Number.Rho

/-!
What a factorisation under a budget promises, whatever the random words.

The listed powers are powers of increasing numbers, and their product is the number that was factored: a probable prime is kept
whole, a square is replaced by its root twice, and the rho method splits off a proper divisor. After the trial division nothing
has a small prime divisor, so a short factor is a prime. A positive number fails only if the budget does not suffice, and then the
number reported is composite, as no prime is ever taken for composite.
-/

namespace CliffordT

namespace Factor

/-! ### Trial division -/

/-- No prime below the bound of the trial division divides the number. -/
def Rough (n : ℕ) : Prop := ∀ q : ℕ, q.Prime → q < trialBound → ¬q ∣ n

theorem Rough.of_dvd {m n : ℕ} (h : Rough n) (hdvd : m ∣ n) : Rough m :=
  fun q hq hlt hqm => h q hq hlt (hqm.trans hdvd)

theorem mem_smallPrimes {p : ℕ} : p ∈ smallPrimes ↔ p < trialBound ∧ p.Prime := by
  simp only [smallPrimes, List.mem_filter, List.mem_range, Bool.and_eq_true, decide_eq_true_eq, List.all_eq_true,
    Bool.or_eq_true, bne_iff_ne, Nat.prime_def_lt', ← Nat.dvd_iff_mod_eq_zero, ne_eq]
  refine and_congr_right fun _ => and_congr_right fun _ => ⟨fun h m hm hlt => ?_, fun h m hlt => ?_⟩
  · exact (h m hlt).resolve_left (by omega)
  · by_cases hm : m < 2
    · exact .inl hm
    · exact .inr (h m (by omega) hlt)

theorem divideOut_spec (p n : ℕ) : p ^ (divideOut p n).1 * (divideOut p n).2 = n := by
  induction n using Nat.strong_induction_on with
  | _ n ih =>
    rw [divideOut]
    split
    · next h =>
      have hrest := ih (n / p) (Nat.div_lt_self h.2.1 h.1)
      dsimp only
      rw [pow_succ', mul_assoc, hrest]
      exact Nat.mul_div_cancel' (Nat.dvd_of_mod_eq_zero h.2.2)
    · simp

theorem divideOut_dvd (p n : ℕ) : (divideOut p n).2 ∣ n := ⟨_, ((mul_comm _ _).trans (divideOut_spec p n)).symm⟩

theorem not_dvd_divideOut {p n : ℕ} (hp : 2 ≤ p) (hn : 0 < n) : ¬p ∣ (divideOut p n).2 := by
  induction n using Nat.strong_induction_on with
  | _ n ih =>
    rw [divideOut]
    split
    · next h =>
      have hle := Nat.le_of_dvd hn (Nat.dvd_of_mod_eq_zero h.2.2)
      exact ih _ (Nat.div_lt_self h.2.1 h.1) (Nat.div_pos hle (by omega))
    · next h => exact fun hdvd => h ⟨hp, hn, Nat.mod_eq_zero_of_dvd hdvd⟩

theorem trialDivide_spec (ps : List ℕ) (n : ℕ) : (trialDivide ps n).1.prod * (trialDivide ps n).2 = n := by
  induction ps generalizing n with
  | nil => simp [trialDivide]
  | cons p ps ih =>
    rw [trialDivide]
    split
    · simp
    · dsimp only
      rw [List.prod_append, List.prod_replicate, mul_assoc, ih, divideOut_spec]

theorem trialDivide_dvd (ps : List ℕ) (n : ℕ) : (trialDivide ps n).2 ∣ n :=
  ⟨_, ((mul_comm _ _).trans (trialDivide_spec ps n)).symm⟩

theorem mem_of_mem_trialDivide {ps : List ℕ} {n p : ℕ} (h : p ∈ (trialDivide ps n).1) : p ∈ ps := by
  induction ps generalizing n with
  | nil => exact h
  | cons q ps ih =>
    rw [trialDivide] at h
    split at h
    · cases h
    · obtain hq | hp := List.mem_append.1 h
      · rw [List.eq_of_mem_replicate hq]
        exact List.mem_cons_self
      · exact List.mem_cons_of_mem q (ih hp)

theorem not_dvd_trialDivide {ps : List ℕ} {n : ℕ} (hn : 0 < n) (h2 : ∀ p ∈ ps, 2 ≤ p) :
    ∀ p ∈ ps, ¬p ∣ (trialDivide ps n).2 := by
  induction ps generalizing n with
  | nil => simp
  | cons q ps ih =>
    intro p hp
    have hp2 := h2 p hp
    rw [trialDivide]
    split
    · next hone =>
      rw [hone, Nat.dvd_one]
      omega
    · have hrest := Nat.pos_of_dvd_of_pos (divideOut_dvd q n) hn
      obtain rfl | hmem := List.mem_cons.1 hp
      · exact fun hdvd => not_dvd_divideOut hp2 hn (hdvd.trans (trialDivide_dvd ps _))
      · exact ih hrest (fun p hp => h2 p (List.mem_cons_of_mem q hp)) p hmem

theorem trialDivide_of_not_dvd {ps : List ℕ} {n : ℕ} (h : ∀ p ∈ ps, ¬p ∣ n) : trialDivide ps n = ([], n) := by
  induction ps with
  | nil => rfl
  | cons p ps ih =>
    have hp : ¬(2 ≤ p ∧ 0 < n ∧ n % p = 0) := fun hmod => h p List.mem_cons_self (Nat.dvd_of_mod_eq_zero hmod.2.2)
    rw [trialDivide, divideOut, dif_neg hp]
    dsimp only
    rw [ih fun q hq => h q (List.mem_cons_of_mem p hq)]
    split <;> rfl

/-- Trial division finds nothing in a product of two large primes. -/
theorem trialDivide_mul {p q : ℕ} (hp : p.Prime) (hq : q.Prime) (hp' : trialBound ≤ p) (hq' : trialBound ≤ q) :
    trialDivide smallPrimes (p * q) = ([], p * q) := by
  refine trialDivide_of_not_dvd fun r hr hdvd => ?_
  obtain ⟨hlt, hprime⟩ := mem_smallPrimes.1 hr
  rcases hprime.dvd_mul.1 hdvd with h | h
  · exact absurd ((Nat.prime_dvd_prime_iff_eq hprime hp).1 h) (by omega)
  · exact absurd ((Nat.prime_dvd_prime_iff_eq hprime hq).1 h) (by omega)

theorem rough_trialDivide {n : ℕ} (hn : 0 < n) : Rough (trialDivide smallPrimes n).2 := fun q hq hlt =>
  not_dvd_trialDivide hn (fun _ hp => (mem_smallPrimes.1 hp).2.two_le) q (mem_smallPrimes.2 ⟨hlt, hq⟩)

/-! ### Splitting -/

/-- A short factor is a prime, and a long one was accepted by the test at some place of the stream. -/
def Accepted (w : Words) (p : ℕ) : Prop :=
  (p < trialBound * trialBound → p.Prime) ∧
    (trialBound * trialBound ≤ p → ∃ v, w.Later v ∧ (Prime.isProbable p v).1 = true)

theorem Accepted.of_later {v w : Words} {p : ℕ} (h : Accepted v p) (hlater : w.Later v) : Accepted w p := by
  refine ⟨h.1, fun hlong => ?_⟩
  obtain ⟨u, hu, hpass⟩ := h.2 hlong
  exact ⟨u, hlater.trans hu, hpass⟩

/-- A list of accepted factors with the given product, or the report of a composite divisor for which the budget does not
suffice. -/
def Splits (effort m : ℕ) (w : Words) : Except Failure (List ℕ × Words) → Prop
  | .ok (l, v) => l.prod = m ∧ w.Later v ∧ ∀ p ∈ l, Accepted w p
  | .error e => ∃ c : ℕ, e = .unfactored (Numeral.ofNat c) effort ∧ c ∣ m ∧ 1 < c ∧ ¬c.Prime ∧ ¬IsSquare c

theorem Splits.singleton {effort m : ℕ} {w v : Words} (hlater : w.Later v) (h : Accepted w m) :
    Splits effort m w (.ok ([m], v)) :=
  ⟨List.prod_singleton, hlater, fun p hp => by rwa [List.mem_singleton.1 hp]⟩

theorem Splits.of_later {effort m : ℕ} {v w : Words} {result : Except Failure (List ℕ × Words)}
    (h : Splits effort m v result) (hlater : w.Later v) : Splits effort m w result := by
  match result, h with
  | .error e, h => exact h
  | .ok (l, u), ⟨hprod, hu, hall⟩ => exact ⟨hprod, hlater.trans hu, fun p hp => (hall p hp).of_later hlater⟩

/-- Two factors are split one after the other. -/
theorem Splits.append {effort a b m : ℕ} {w : Words} (hab : a * b = m) (first : Except Failure (List ℕ × Words))
    (second : Words → Except Failure (List ℕ × Words)) :
    Splits effort a w first → (∀ v, Splits effort b v (second v)) → Splits effort m w (match first with
      | .error e => .error e
      | .ok (left, w) =>
        match second w with
        | .error e => .error e
        | .ok (right, w) => .ok (left ++ right, w)) := by
  intro hfirst hsecond
  match first, hfirst with
  | .error e, ⟨c, he, hdvd, hc⟩ => exact ⟨c, he, hdvd.trans (hab ▸ dvd_mul_right a b), hc⟩
  | .ok (left, v), ⟨hleft, hlater, hall⟩ =>
    have h := (hsecond v).of_later hlater
    dsimp only
    match second v, h with
    | .error e, ⟨c, he, hdvd, hc⟩ => exact ⟨c, he, hdvd.trans (hab ▸ dvd_mul_left b a), hc⟩
    | .ok (right, u), ⟨hright, hu, hall'⟩ =>
      refine ⟨by rw [List.prod_append, hleft, hright, hab], hu, fun p hp => ?_⟩
      exact (List.mem_append.1 hp).elim (hall p) (hall' p)

theorem split_spec (effort : ℕ) {m : ℕ} (w : Words) (hm : 0 < m) (hrough : Rough m) :
    Splits effort m w (split effort m w) := by
  -- `Rough` passes to the parts, since they divide the number; what is reported for a part is a divisor of the number as well.
  induction m using Nat.strong_induction_on generalizing w with
  | _ m ih =>
    rw [split]
    by_cases hone : m ≤ 1
    · rw [if_pos hone]
      obtain rfl : m = 1 := by omega
      exact ⟨List.prod_nil, .refl w, fun p hp => by cases hp⟩
    by_cases htrial : m < trialBound * trialBound
    · rw [if_neg hone, if_pos htrial]
      refine .singleton (.refl w) ⟨fun _ => ?_, fun hlong => absurd htrial (not_lt.2 hlong)⟩
      exact Prime.prime_of_lt_mul_self (by omega) htrial hrough
    rw [if_neg hone, if_neg htrial]
    have hlater := Prime.later_isProbable m w
    have hprime := fun h : m.Prime => Prime.isProbable_of_prime h w
    have haccepted : (Prime.isProbable m w).1 = true → Accepted w m := fun h =>
      ⟨fun hshort => absurd hshort htrial, fun _ => ⟨w, .refl w, h⟩⟩
    generalize Prime.isProbable m w = test at hlater hprime haccepted ⊢
    obtain ⟨prime, w₁⟩ := test
    dsimp only at hlater hprime haccepted ⊢
    cases prime with
    | true => exact .singleton hlater (haccepted rfl)
    | false =>
      rw [if_neg Bool.false_ne_true]
      by_cases hroot : natRoot m < m ∧ natRoot m * natRoot m = m
      · rw [if_pos hroot]
        have hdvd : natRoot m ∣ m := ⟨_, hroot.2.symm⟩
        have hpos := Nat.pos_of_dvd_of_pos hdvd hm
        have hpart := hrough.of_dvd hdvd
        exact (Splits.append hroot.2 _ _ (ih _ hroot.1 w₁ hpos hpart) fun v => ih _ hroot.1 v hpos hpart).of_later hlater
      · rw [if_neg hroot]
        have hsquare : ¬IsSquare m := fun h =>
          hroot ⟨natRoot_lt_self (by omega), (natRoot_mul_self_iff m).2 h⟩
        split
        · exact ⟨m, rfl, dvd_rfl, by omega, fun h => Bool.false_ne_true (hprime h), hsquare⟩
        · next d w₂ hdivisor =>
          have hlong : 2 < m := by
            rw [trialBound] at htrial
            omega
          obtain ⟨hdvd, h1, hlt⟩ := Rho.divisor?_spec hlong hdivisor
          have hquot : m / d < m := Nat.div_lt_self hm h1
          have hq : 0 < m / d := Nat.div_pos hlt.le (by omega)
          have hlater₂ : w.Later w₂ := by
            have := Rho.later_divisor? m effort w₁
            rw [hdivisor] at this
            exact hlater.trans this
          rw [dif_pos ⟨hlt, hquot⟩]
          exact (Splits.append (Nat.mul_div_cancel' hdvd) _ _ (ih d hlt w₂ (by omega) (hrough.of_dvd hdvd)) fun v =>
            ih _ hquot v hq (hrough.of_dvd (Nat.div_dvd_of_dvd hdvd))).of_later hlater₂

/-! ### Runs of equal factors -/

theorem runs_prod (l : List ℕ) : ((runs l).map fun pe => pe.1 ^ pe.2).prod = l.prod := by
  induction l with
  | nil => rfl
  | cons p ps ih =>
    rw [runs, List.prod_cons, ← ih]
    split
    · next q e rest hruns =>
      rw [hruns]
      split
      · next hpq =>
        rw [hpq, List.map_cons, List.prod_cons, List.map_cons, List.prod_cons]
        dsimp only
        rw [pow_succ', mul_assoc]
      · rw [List.map_cons, List.prod_cons, pow_one]
    · next hruns => simp [hruns]

theorem runs_pos {l : List ℕ} : ∀ pe ∈ runs l, 0 < pe.2 := by
  induction l with
  | nil => simp [runs]
  | cons p ps ih =>
    rw [runs]
    split
    · next q e rest hruns =>
      rw [hruns] at ih
      split
      · intro pe hpe
        rcases List.mem_cons.1 hpe with rfl | hpe
        · exact Nat.succ_pos e
        · exact ih pe (List.mem_cons_of_mem _ hpe)
      · intro pe hpe
        rcases List.mem_cons.1 hpe with rfl | hpe
        · exact Nat.one_pos
        · exact ih pe hpe
    · simp

theorem mem_of_mem_runs {l : List ℕ} : ∀ pe ∈ runs l, pe.1 ∈ l := by
  induction l with
  | nil => simp [runs]
  | cons p ps ih =>
    rw [runs]
    split
    · next q e rest hruns =>
      rw [hruns] at ih
      split
      · next hpq =>
        intro pe hpe
        rcases List.mem_cons.1 hpe with rfl | hpe
        · rw [hpq]
          exact List.mem_cons_self
        · exact List.mem_cons_of_mem p (ih pe (List.mem_cons_of_mem _ hpe))
      · intro pe hpe
        rcases List.mem_cons.1 hpe with rfl | hpe
        · exact List.mem_cons_self
        · exact List.mem_cons_of_mem p (ih pe hpe)
    · simp

/-- The runs of a sorted list belong to increasing numbers. -/
theorem runs_sorted {l : List ℕ} (h : l.Pairwise (· ≤ ·)) : (runs l).Pairwise fun pe qe => pe.1 < qe.1 := by
  induction l with
  | nil => exact List.Pairwise.nil
  | cons p ps ih =>
    obtain ⟨hle, hps⟩ := List.pairwise_cons.1 h
    have hsorted := ih hps
    rw [runs]
    split
    · next q e rest hruns =>
      rw [hruns] at hsorted
      obtain ⟨hq, hrest⟩ := List.pairwise_cons.1 hsorted
      split
      · exact List.pairwise_cons.2 ⟨hq, hrest⟩
      · next hpq =>
        have hlt : p < q := by
          have hmem := mem_of_mem_runs (l := ps) (q, e) (by rw [hruns]; exact List.mem_cons_self)
          exact lt_of_le_of_ne (hle q hmem) hpq
        refine List.pairwise_cons.2 ⟨fun pe hpe => ?_, hsorted⟩
        rcases List.mem_cons.1 hpe with rfl | hpe
        · exact hlt
        · exact hlt.trans (hq pe hpe)
    · exact List.pairwise_singleton _ _

/-! ### The whole factorisation -/

/-- Powers of increasing numbers, with positive exponents and the given product. -/
structure IsFactorization (n : ℕ) (factors : List (ℕ × ℕ)) : Prop where
  prod_eq : (factors.map fun pe => pe.1 ^ pe.2).prod = n
  sorted : factors.Pairwise fun pe qe => pe.1 < qe.1
  pos : ∀ pe ∈ factors, 0 < pe.2

/-- If the numbers are primes, each divides the product exactly as often as listed. -/
theorem IsFactorization.exact {n : ℕ} {factors : List (ℕ × ℕ)} (h : IsFactorization n factors)
    (hprime : ∀ pe ∈ factors, pe.1.Prime) {p e : ℕ} (hpe : (p, e) ∈ factors) : p ^ e ∣ n ∧ ¬p ^ (e + 1) ∣ n := by
  obtain ⟨left, right, rfl⟩ := List.append_of_mem hpe
  obtain ⟨-, hcons, hleft⟩ := List.pairwise_append.1 h.sorted
  have hright := (List.pairwise_cons.1 hcons).1
  have hp := hprime _ hpe
  -- The other powers belong to other primes, so that their product is coprime to `p`.
  have hcoprime (l : List (ℕ × ℕ)) (hl : ∀ qf ∈ l, qf.1.Prime ∧ qf.1 ≠ p) :
      p.Coprime (l.map fun qf => qf.1 ^ qf.2).prod := by
    refine Nat.coprime_list_prod_right_iff.2 fun m hm => ?_
    obtain ⟨qf, hqf, rfl⟩ := List.mem_map.1 hm
    exact Nat.Coprime.pow_right qf.2 ((Nat.coprime_primes hp (hl qf hqf).1).2 (hl qf hqf).2.symm)
  have hrest := (hcoprime left fun qf hqf =>
    ⟨hprime qf (List.mem_append_left _ hqf), (hleft qf hqf (p, e) List.mem_cons_self).ne⟩).mul_right
    (hcoprime right fun qf hqf =>
      ⟨hprime qf (List.mem_append_right _ (List.mem_cons_of_mem _ hqf)), (hright qf hqf).ne'⟩)
  have hprod := h.prod_eq
  rw [List.map_append, List.prod_append, List.map_cons, List.prod_cons, mul_left_comm] at hprod
  rw [← hprod]
  refine ⟨dvd_mul_right _ _, fun hdvd => (hp.coprime_iff_not_dvd.1 hrest) ?_⟩
  rw [pow_succ] at hdvd
  exact Nat.dvd_of_mul_dvd_mul_left (pow_pos hp.pos e) hdvd

/-- A factorisation of a positive number is complete, or reports a composite divisor. -/
theorem factor_cases {n : ℕ} (hn : 0 < n) (effort : ℕ) (w : Words) :
    (∃ factors w', factor n effort w = .ok (factors, w') ∧ IsFactorization n factors ∧
      ∀ pe ∈ factors, Accepted w pe.1 ∧ (trialBound ≤ pe.1 → Rough pe.1)) ∨
    ∃ c : ℕ, factor n effort w = .error (.unfactored (Numeral.ofNat c) effort) ∧ c ∣ n ∧ 1 < c ∧ ¬c.Prime ∧ ¬IsSquare c ∧
      Rough c := by
  have htrial := trialDivide_spec smallPrimes n
  have hrough := rough_trialDivide hn
  have hsmall := fun p => @mem_of_mem_trialDivide smallPrimes n p
  rw [factor, if_neg (by omega), Int.toNat_natCast]
  generalize trialDivide smallPrimes n = trial at htrial hrough hsmall ⊢
  obtain ⟨small, rest⟩ := trial
  dsimp only at htrial hrough hsmall ⊢
  have hdvd : rest ∣ n := ⟨_, ((mul_comm _ _).trans htrial).symm⟩
  have hsplit := split_spec effort w (Nat.pos_of_dvd_of_pos hdvd hn) hrough
  match split effort rest w, hsplit with
  | .error e, ⟨c, he, hc, hcomposite⟩ =>
    obtain rfl := he
    exact .inr ⟨c, rfl, hc.trans hdvd, hcomposite.1, hcomposite.2.1, hcomposite.2.2, hrough.of_dvd hc⟩
  | .ok (large, w'), ⟨hlarge, _, hall⟩ =>
    refine .inl ⟨_, w', rfl, ⟨?_, runs_sorted ?_, runs_pos⟩, fun pe hpe => ?_⟩
    · rw [runs_prod, (List.mergeSort_perm _ _).prod_eq, List.prod_append, hlarge, htrial]
    · have htrans : ∀ a b c : ℕ, decide (a ≤ b) = true → decide (b ≤ c) = true → decide (a ≤ c) = true := by
        simpa using fun a b c => le_trans
      have htotal : ∀ a b : ℕ, (decide (a ≤ b) || decide (b ≤ a)) = true := by
        simpa using le_total
      simpa using List.pairwise_mergeSort htrans htotal (small ++ large)
    · obtain hmem | hmem := List.mem_append.1 (List.mem_mergeSort.1 (mem_of_mem_runs pe hpe))
      · obtain ⟨hlt, hprime⟩ := mem_smallPrimes.1 (hsmall pe.1 hmem)
        refine ⟨⟨fun _ => hprime, fun hlong => ?_⟩, fun hlong => absurd hlt (not_lt.2 hlong)⟩
        rw [trialBound] at hlt hlong
        omega
      · exact ⟨hall pe.1 hmem, fun _ => hrough.of_dvd (hlarge ▸ List.dvd_prod hmem)⟩

/-- A positive number is factored, or its budget does not suffice. -/
theorem factor_spec {n : ℕ} (hn : 0 < n) (effort : ℕ) (w : Words) :
    (∃ factors w', factor n effort w = .ok (factors, w') ∧ IsFactorization n factors) ∨
      ∃ text, factor n effort w = .error (.unfactored text effort) := by
  obtain ⟨factors, w', hfactor, hfact, -⟩ | ⟨c, hfactor, -⟩ := factor_cases hn effort w
  · exact .inl ⟨factors, w', hfactor, hfact⟩
  · exact .inr ⟨_, hfactor⟩

/-- Trial division is enough for a number without large prime divisors. -/
theorem factor_of_trialDivide {n : ℕ} (hn : 0 < n) {small : List ℕ} (h : trialDivide smallPrimes n = (small, 1))
    (effort : ℕ) (w : Words) : factor n effort w = .ok (runs (small.mergeSort (· ≤ ·)), w) := by
  rw [factor, if_neg (by omega), Int.toNat_natCast, h]
  dsimp only
  rw [split, if_pos le_rfl]
  dsimp only
  rw [List.append_nil]

/-- Factoring ends with any stream of random words. A positive number is factored into increasing bases, of which the short
ones are primes and the others have passed the test, or else a composite divisor is reported, which is neither a square nor has
a small prime divisor. The last two statements say that only the budget ends a search for a divisor, and that what a search
finds splits a number into smaller ones. -/
theorem factor_or_composite_divisor (n : ℤ) (effort : ℕ) (w : Words) :
    (n ≤ 0 → factor n effort w = .error (.broken (.nonPositive n))) ∧
      (0 < n →
        (∃ factors w', factor n effort w = .ok (factors, w') ∧ IsFactorization n.toNat factors ∧ ∀ pe ∈ factors,
          (pe.1 < 2 ^ 20 → pe.1.Prime) ∧
            (2 ^ 20 ≤ pe.1 → Rough pe.1 ∧ ∃ v, w.Later v ∧ (Prime.isProbable pe.1 v).1 = true)) ∨
        ∃ c : ℕ, factor n effort w = .error (.unfactored (Numeral.ofNat c) effort) ∧ (c : ℤ) ∣ n ∧ 1 < c ∧ ¬c.Prime ∧
          ¬IsSquare c ∧ Rough c) ∧
      (∀ m rounds v, effort ≤ rounds → Rho.attempts m rounds effort v = Rho.attempts m effort effort v) ∧
      ∀ m v d v', 2 < m → Rho.divisor? m effort v = (some d, v') → d ∣ m ∧ 1 < d ∧ d < m := by
  refine ⟨fun hn => by rw [factor, if_pos hn], fun hn => ?_, fun m rounds v h => Rho.attempts_congr h le_rfl v,
    fun m v d v' hm h => Rho.divisor?_spec hm h⟩
  obtain ⟨m, rfl⟩ := Int.eq_ofNat_of_zero_le hn.le
  have hbound : 2 ^ 20 = trialBound * trialBound := by norm_num [trialBound]
  obtain ⟨factors, w', hfactor, hfact, hall⟩ | ⟨c, hfactor, hdvd, hc⟩ := factor_cases (Int.natCast_pos.1 hn) effort w
  · refine .inl ⟨factors, w', hfactor, hfact, fun pe hpe => ?_⟩
    obtain ⟨haccepted, hrough⟩ := hall pe hpe
    rw [hbound]
    refine ⟨haccepted.1, fun hlong => ⟨hrough ?_, haccepted.2 hlong⟩⟩
    exact (Nat.le_mul_self trialBound).trans hlong
  · exact .inr ⟨c, hfactor, Int.natCast_dvd_natCast.2 hdvd, hc⟩

/-- Zero is refused, `60` is factored, and without a budget the product of the primes 1031 and 1033 is reported. -/
theorem factor_or_composite_divisor_two_primes :
    factor 0 0 (Words.ofSeed 1) = .error (.broken (.nonPositive 0)) ∧
      (∃ factors w', factor 60 0 (Words.ofSeed 1) = .ok (factors, w') ∧ IsFactorization 60 factors) ∧
      ∃ c : ℕ, factor (1031 * 1033) 0 (Words.ofSeed 1) = .error (.unfactored (Numeral.ofNat c) 0) ∧
        (c : ℤ) ∣ 1031 * 1033 ∧ 1 < c ∧ ¬c.Prime ∧ ¬IsSquare c ∧ Rough c := by
  have hsixty := (factor_or_composite_divisor 60 0 (Words.ofSeed 1)).2.1 (by norm_num)
  have hlong := (factor_or_composite_divisor (1031 * 1033) 0 (Words.ofSeed 1)).2.1 (by norm_num)
  refine ⟨(factor_or_composite_divisor 0 0 (Words.ofSeed 1)).1 le_rfl, ?_, hlong.resolve_left ?_⟩
  · obtain ⟨factors, w', hfactor, hfact, -⟩ | ⟨c, hfactor, -⟩ := hsixty
    · exact ⟨factors, w', hfactor, hfact⟩
    · have hdivided : trialDivide smallPrimes 60 = ([2, 2, 3, 5], 1) := by decide +kernel
      rw [show (60 : ℤ) = (60 : ℕ) by rfl, factor_of_trialDivide (by decide) hdivided] at hfactor
      cases hfactor
  · rintro ⟨factors, w', hfactor, -⟩
    have hrough : ∀ p ∈ smallPrimes, ¬p ∣ 1031 * 1033 := by
      intro p hp hdvd
      obtain ⟨hlt, hprime⟩ := mem_smallPrimes.1 hp
      rw [trialBound] at hlt
      rcases hprime.dvd_mul.1 hdvd with h | h
      · rw [(Nat.prime_dvd_prime_iff_eq hprime (by norm_num)).1 h] at hlt
        omega
      · rw [(Nat.prime_dvd_prime_iff_eq hprime (by norm_num)).1 h] at hlt
        omega
    have hfails : (factor (1031 * 1033 : ℕ) 0 (Words.ofSeed 1)).isOk = false := by
      rw [factor, if_neg (by norm_num), Int.toNat_natCast, trialDivide_of_not_dvd hrough]
      decide +kernel
    rw [show ((1031 * 1033 : ℕ) : ℤ) = 1031 * 1033 by rfl, hfactor] at hfails
    cases hfails

end Factor

end CliffordT

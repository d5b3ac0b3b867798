import CliffordT.Proofs.Gate.Stored
import CliffordT.Proofs.NormEquation.Solve
import CliffordT.Rotation.Search

/-!
The word of an approximation and the denominator exponent it was found at.

Every point that an enumeration yields has the exponent of its problem, and a candidate is accepted only if its column
has length one. Both facts are carried through the loops of the search, and the word of the accepted candidate
then has the number of gates `T` that its exponent prescribes.
-/

namespace CliffordT

open Exponent

/-! ### Points -/

namespace Points

variable {K E : Type} [Exponent E]

/-- Points are reduced and have the exponent of the problem. -/
theorem accept_exponent [Scalar K] {p : Problem K E} {origin u : CycloFrac E} {beta : QuadInt}
    (h : p.accept? origin beta = some u) : LeastExponent u (load p.exponent) ∧ load u.exp = load p.exponent := by
  rw [Problem.accept?] at h
  split at h
  · next hcond =>
    obtain rfl := Option.some.inj h
    simp only [Bool.and_eq_true, decide_eq_true_eq] at hcond
    refine ⟨(leastExponent_iff _ _).2 ?_, hcond.1.1⟩
    rw [RootFrac.reduce_exp_congr (RootFrac.value_reduce _)]
    exact hcond.1.1
  · cases h

variable [NumericScalar K]

theorem step_exponent {p : Problem K E} {s s' : State K E} {u : CycloFrac E} (h : step p s = .found u s') :
    LeastExponent u (load p.exponent) ∧ load u.exp = load p.exponent := by
  rw [step] at h
  split at h
  · next c _ =>
    split at h
    · cases h
    · cases h
    · next beta ys _ =>
      cases haccept : p.accept? c.origin beta with
      | none =>
        simp only [haccept] at h
        cases h
      | some v =>
        simp only [haccept] at h
        cases h
        exact accept_exponent haccept
  · split at h <;> cases h

theorem enumeration_exponent (first second : Region K E) (pair? : Option (UprightPair K E)) (k : ℕ) :
    (enumeration first second pair? k).1.exponent = store k := by
  cases pair? <;> rfl

end Points

/-! ### Candidates -/

namespace Search

open QubitOp

variable {E : Type} [Exponent E]

/-- An accepted candidate has the given exponent, and its column has length one. -/
structure Accepted.Valid (candidate : Accepted E) (k : ℕ) : Prop where
  exponent : LeastExponent candidate.u k
  length : (ofColumn candidate.u candidate.t).isUnitary = true
  u_le : load candidate.u.exp ≤ k
  t_le : load candidate.t.exp ≤ k

theorem judge_accepted {o : Options} {c : Precision} {t t' : Tally} {u : CycloFrac E} {candidate : Accepted E}
    (h : judge o c t u = .ok (some candidate, t')) {k : ℕ} (hk : LeastExponent u k ∧ load u.exp = k) :
    candidate.Valid k := by
  rw [judge] at h
  dsimp only at h
  split at h
  · cases h
  · split at h <;> cases h
  · next w hsolve =>
    have hexp := NormEquation.two_mul_exp_le_of_solveFrac hsolve
    have hsq : load (CycloFrac.absSq u).exp ≤ 2 * load u.exp := load_store_le _
    rw [RootFrac.exp_sub, show load (1 : QuadFrac E).exp = 0 from load_zero, Nat.zero_max] at hexp
    split at h
    · cases h
    · next hcolumn =>
      split at h
      · cases h
      · cases h
      · cases h
        exact ⟨hk.1, by simpa using hcolumn, hk.2.le, by dsimp only; omega⟩

variable {K : Type} [NumericScalar K]

theorem scan_accepted {o : Options} {c : Precision} {p : Points.Problem K E} {steps : ℕ} {s : Points.State K E}
    {t t' : Tally} {candidate : Accepted E} (h : scan o c p steps s t = .ok (.accepted candidate t')) :
    candidate.Valid (load p.exponent) := by
  induction steps generalizing s t with
  | zero => cases h
  | succ steps ih =>
    rw [scan] at h
    split at h
    · cases h
    · exact ih h
    · next u s' hstep =>
      split at h
      · cases h
      · next candidate' t₁ hjudge =>
        cases h
        exact judge_accepted hjudge (Points.step_exponent hstep)
      · exact ih h

theorem scanFrom_accepted {o : Options} {c : Precision} {first second : Region K E}
    {pair? : Option (UprightPair K E)} {k more n : ℕ} (hE : Stores E n) {t t' : Tally} {candidate : Accepted E}
    (h : scanFrom o c first second pair? k more t = .ok (n, candidate, t')) : candidate.Valid n ∧ n < k + more := by
  induction more generalizing k t with
  | zero => cases h
  | succ more ih =>
    rw [scanFrom] at h
    dsimp only at h
    split at h
    · cases h
    · next candidate' t₁ hscan =>
      cases h
      have hvalid := scan_accepted hscan
      rw [Points.enumeration_exponent, load_store] at hvalid
      exact ⟨hvalid, by omega⟩
    · obtain ⟨hvalid, hlt⟩ := ih h
      exact ⟨hvalid, by omega⟩

theorem run_accepted {o : Options} {c : Precision} {k : ℕ} (hE : Stores E k) {t : Tally} {candidate : Accepted E}
    (h : run K E o c = .ok (k, candidate, t)) : candidate.Valid k ∧ k ≤ o.maxExponent := by
  simp only [run, bind, Except.bind] at h
  split at h
  · cases h
  · split at h
    · cases h
    · obtain ⟨hvalid, hlt⟩ := scanFrom_accepted hE h
      exact ⟨hvalid, by omega⟩

end Search

open Synthesis QubitOp

variable {E : Type} [Exponent E]

/-- An approximation comes from an accepted candidate of its exponent, whose completed column it decomposes. -/
theorem exists_candidate {o : Options} {a : Approximation} (hE : Stores E a.exponent) (h : approximateOver E o = .ok a) :
    ∃ candidate : Search.Accepted E, candidate.Valid a.exponent ∧ a.exponent ≤ o.maxExponent ∧
      decompose (ofColumn candidate.u candidate.t) = .ok a.word := by
  simp only [approximateOver, bind, Except.bind] at h
  split at h
  · cases h
  · split at h
    · cases h
    · next found hrun =>
      obtain ⟨k, candidate, tally⟩ := found
      dsimp only at h
      split at h
      · cases h
      · next word hword =>
        split at h
        · split at h
          · cases h
          · cases h
            obtain ⟨hvalid, hle⟩ := Search.run_accepted hE hrun
            exact ⟨candidate, hvalid, hle, hword⟩
        · cases h
          obtain ⟨hvalid, hle⟩ := Search.run_accepted hE hrun
          exact ⟨candidate, hvalid, hle, hword⟩

/-- What is known of the word of an approximation. -/
structure Approximation.Spec (E : Type) [Exponent E] (o : Options) (a : Approximation) : Prop where
  /-- The exponent is one that the search goes through. -/
  exponent_le : a.exponent ≤ o.maxExponent
  /-- The exponent determines the number of gates `T`. -/
  tCount_eq : a.word.tCount = 2 * max a.exponent 1 - 2
  /-- The operator of the word is the same, whether exponents are stored or not. -/
  unbounded_ofWord : (ofWord a.word : QubitOp E).unbounded = ofWord a.word
  /-- Its stored exponents are at most the one that was found. -/
  depth_le : (ofWord a.word : QubitOp E).depth ≤ a.exponent
  /-- It has determinant one. -/
  phase_eq : (ofWord a.word : QubitOp ℕ).phase = 0
  /-- Its top left entry has the exponent. -/
  leastExponent : LeastExponent (ofWord a.word : QubitOp ℕ).z a.exponent

theorem spec_of_approximate {o : Options} {a : Approximation} (hE : Stores E (2 * (a.exponent + searchDepth)))
    (h : approximateOver E o = .ok a) : a.Spec E o := by
  obtain ⟨candidate, hvalid, hle, hdecompose⟩ := exists_candidate (hE.of_le (by omega)) h
  have hmax : max (load candidate.u.exp) (load candidate.t.exp) ≤ a.exponent := max_le hvalid.u_le hvalid.t_le
  have hdepth := depth_ofColumn_le candidate.u candidate.t
  have hunitary := hvalid.length
  rw [← isUnitary_unbounded (hE.of_le (by omega)), unbounded_ofColumn] at hunitary
  have hlength := (isUnitary_ofColumn_iff _ _).1 hunitary
  rw [same_one_unbounded (hE.of_le (by omega))] at hlength
  obtain ⟨word, hok, hcount, hword⟩ := tCount_ofColumn_stored (hE.of_le (by omega)) hlength hvalid.exponent
  obtain rfl : word = a.word := Except.ok.inj (hok.symm.trans hdecompose)
  rw [← unbounded_ofColumn] at hunitary
  obtain ⟨hunbounded, hwordDepth⟩ := unbounded_ofWord_of_decompose (hE.of_le (by omega)) hunitary hok
  rw [unbounded_ofColumn] at hword
  obtain ⟨hz, -, hphase⟩ := equiv_iff.1 hword
  refine ⟨hle, hcount, hunbounded, by omega, hphase.trans (ofColumn_phase _ _), ?_⟩
  rw [leastExponent_iff, ← (leastExponent_iff _ _).1 hvalid.exponent, RootFrac.reduce_exp_congr (hz.trans (ofColumn_z _ _)),
    ← RootFrac.unbounded_reduce, RootFrac.unbounded_exp, load_nat]

set_option maxRecDepth 100000 in
/-- The rotation by one half has an approximation within one fifth, and no candidate is given up on the way. -/
theorem exists_approximation_half_fifth :
    ∃ a, approximate (.ofLiterals ⟨1, 2, false, by decide⟩ ⟨1, 5, false, by decide⟩) = .ok a ∧ a.exponent < 100 ∧
      a.timeouts = 0 := by
  have hok : (match approximate (.ofLiterals ⟨1, 2, false, by decide⟩ ⟨1, 5, false, by decide⟩) with
      | .ok a => decide (a.exponent < 100 ∧ a.timeouts = 0)
      | .error _ => false) = true := by decide +kernel
  split at hok
  · next a ha => exact ⟨a, ha, of_decide_eq_true hok⟩
  · cases hok

/-- The word of a completed column, and the word of an approximation, has `2 max(k, 1) - 2` gates `T`, where `k` is the
least denominator exponent of the top left entry. The word of an approximation has determinant one. The exponents that come up
on the way have to be ones that can be stored. -/
theorem tCount_eq_of_exponent (E : Type) [Exponent E] :
    (∀ (z w : CycloFrac E) (k : ℕ), Stores E (2 * (max (load z.exp) (load w.exp) + searchDepth)) →
      (CycloFrac.absSq z + CycloFrac.absSq w).same 1 = true → LeastExponent z k →
      ∃ word, decompose (ofColumn z w) = .ok word ∧ word.tCount = 2 * max k 1 - 2) ∧
    ∀ (o : Options) (a : Approximation), Stores E (2 * (a.exponent + searchDepth)) → approximateOver E o = .ok a →
      a.exponent ≤ o.maxExponent ∧ a.word.tCount = 2 * max a.exponent 1 - 2 ∧ (ofWord a.word : QubitOp E).isUnitary = true ∧
        (ofWord a.word : QubitOp E).phase = 0 ∧ LeastExponent (ofWord a.word : QubitOp E).z a.exponent := by
  constructor
  · intro z w k hE h hk
    obtain ⟨word, hok, hcount, -⟩ := tCount_ofColumn_stored hE h hk
    exact ⟨word, hok, hcount⟩
  · intro o a hE h
    have hspec := spec_of_approximate hE h
    have hdepth := hspec.depth_le
    have hphase := hspec.phase_eq
    have hleast := hspec.leastExponent
    rw [← hspec.unbounded_ofWord] at hphase hleast
    refine ⟨hspec.exponent_le, hspec.tCount_eq, ?_, hphase, hleast⟩
    rw [← isUnitary_unbounded (hE.of_le (by omega)), hspec.unbounded_ofWord]
    exact isUnitary_ofWord a.word

/-- The first column of `H T H T H` and the rotation by one half within one fifth. -/
theorem tCount_eq_of_exponent_half_fifth :
    (∃ word, decompose (ofColumn (ofWord [.H, .T, .H, .T, .H] : QubitOp).z (ofWord [.H, .T, .H, .T, .H] : QubitOp).w) = .ok word ∧
      word.tCount = 2) ∧
    ∃ a, approximate (.ofLiterals ⟨1, 2, false, by decide⟩ ⟨1, 5, false, by decide⟩) = .ok a ∧
      a.word.tCount = 2 * max a.exponent 1 - 2 ∧ (ofWord a.word : QubitOp).isUnitary = true ∧
        (ofWord a.word : QubitOp).phase = 0 ∧ LeastExponent (ofWord a.word : QubitOp).z a.exponent := by
  constructor
  · exact (tCount_eq_of_exponent UInt32).1 _ _ 2 (.of_lt (by decide +kernel)) (by decide +kernel)
      ((leastExponent_iff _ 2).2 (by decide +kernel))
  · obtain ⟨a, ha, hexponent, -⟩ := exists_approximation_half_fifth
    exact ⟨a, ha, ((tCount_eq_of_exponent UInt32).2 _ a (.of_lt (by rw [searchDepth]; omega)) ha).2⟩

end CliffordT

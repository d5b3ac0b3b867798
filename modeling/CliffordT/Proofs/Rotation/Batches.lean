import CliffordT.Proofs.Number.Bits
import CliffordT.Proofs.Rotation.Search
import Mathlib.Tactic.Set

/-!
Searches with different batch sizes.

A tally counts how many candidates have been judged since the budget was last reconsidered, and nothing but the moments of
these reviews depends on that count. A review changes the budget only when enough candidates have been given up. Up to
then, two searches that differ in the batch size alone judge the same candidates with the same budget and
the same random words.
-/

namespace CliffordT

/-- The request with another batch size. -/
def Options.rebatched (o : Options) (b : ℕ) : Options := { o with batchSize := b }

namespace Search

/-- The tally with another place in the batch. -/
def Tally.rebatched (t : Tally) (n : ℕ) : Tally := { t with inBatch := n }

namespace Tally

variable {o : Options} {t : Tally}

@[simp] theorem rebatched_rebatched (t : Tally) (m n : ℕ) : (t.rebatched m).rebatched n = t.rebatched n := rfl

theorem timeouts_review (o : Options) (t : Tally) : (t.review o).timeouts = t.timeouts := by
  rw [review]
  split <;> rfl

theorem timeouts_closeFullBatch (o : Options) (t : Tally) : (t.closeFullBatch o).timeouts = t.timeouts := by
  rw [closeFullBatch]
  split
  · exact timeouts_review o t
  · rfl

theorem timeouts_closeBatch (o : Options) (t : Tally) : (t.closeBatch o).timeouts = t.timeouts := by
  rw [closeBatch]
  split
  · rfl
  · exact timeouts_review o t

/-- A review with few candidates given up changes nothing but the place in the batch. -/
theorem review_eq (h : t.recent < o.growthThreshold) : t.review o = t.rebatched 0 := by
  simp [review, rebatched, not_le.2 h]

theorem closeFullBatch_eq (h : t.recent < o.growthThreshold) : ∃ n, t.closeFullBatch o = t.rebatched n := by
  rw [closeFullBatch]
  split
  · exact ⟨0, review_eq h⟩
  · exact ⟨t.inBatch, rfl⟩

theorem closeBatch_eq (h : t.recent < o.growthThreshold) : t.closeBatch o = t.rebatched 0 := by
  rw [closeBatch]
  split
  · next h0 => rw [rebatched, ← h0]
  · exact review_eq h

/-- After a candidate two tallies with few candidates given up still differ in their places alone. -/
theorem closeFullBatch_rebatched (h : t.recent < o.growthThreshold) (b n : ℕ) :
    ∃ k m, t.closeFullBatch o = t.rebatched k ∧ (t.rebatched n).closeFullBatch (o.rebatched b) = t.rebatched m := by
  obtain ⟨k, hk⟩ := closeFullBatch_eq (o := o) h
  obtain ⟨m, hm⟩ := closeFullBatch_eq (o := o.rebatched b) (t := t.rebatched n) h
  exact ⟨k, m, hk, hm⟩

theorem closeBatch_rebatched (h : t.recent < o.growthThreshold) (b n : ℕ) :
    (t.rebatched n).closeBatch (o.rebatched b) = t.closeBatch o := by
  rw [closeBatch_eq (o := o) h, closeBatch_eq (o := o.rebatched b) (t := t.rebatched n) h, rebatched_rebatched]

end Tally

/-! ### One candidate -/

variable {E : Type} [Exponent E] {o : Options} {c : Precision}

theorem compareError_rebatched (o : Options) (b : ℕ) (u : CycloFrac E) (c : Precision) :
    compareError (o.rebatched b) u c = compareError o u c := by
  delta compareError Options.rebatched
  dsimp only

-- a comparison must not be computed while the equation is checked
attribute [local irreducible] compareError in
theorem checkError_succ (o : Options) (u : CycloFrac E) (c : Precision) (retries : ℕ) :
    checkError o u c (retries + 1) = (match compareError o u c with
      | .error _ => checkError o u c.raised retries
      | decided => decided) := rfl

theorem checkError_rebatched (o : Options) (b : ℕ) (u : CycloFrac E) (c : Precision) (retries : ℕ) :
    checkError (o.rebatched b) u c retries = checkError o u c retries := by
  induction retries generalizing c with
  | zero => exact compareError_rebatched o b u c
  | succ retries ih => rw [checkError_succ, checkError_succ, compareError_rebatched, ih]

/-- How a candidate is judged does not depend on the batch. -/
theorem judge_rebatched (o : Options) (b : ℕ) (c : Precision) (t : Tally) (n : ℕ) (u : CycloFrac E) :
    judge (o.rebatched b) c (t.rebatched n) u = (judge o c t u).map fun r => (r.1, r.2.rebatched (n + 1)) := by
  simp only [judge, checkError_rebatched]
  simp only [Options.rebatched, Tally.rebatched]
  split
  · rfl
  · split <;> rfl
  · split
    · rfl
    · split <;> rfl

/-- What judging a candidate does to the counts. -/
theorem judge_counts {t t' : Tally} {u : CycloFrac E} {found : Option (Accepted E)} (h : judge o c t u = .ok (found, t')) :
    t.timeouts ≤ t'.timeouts ∧ t'.timeouts ≤ t.timeouts + 1 ∧ t'.recent + t.timeouts = t.recent + t'.timeouts := by
  rw [judge] at h
  dsimp only at h
  split at h
  · cases h
    dsimp only
    omega
  · split at h
    · cases h
      dsimp only
      omega
    · cases h
  · split at h
    · cases h
    · split at h
      · cases h
      all_goals
        cases h
        dsimp only
        omega

/-! ### One exponent -/

/-- The tally at the end. -/
def Verdict.tally : Verdict E → Tally
  | accepted _ t => t
  | exhausted t => t

/-- The verdict with another place in the batch. -/
def Verdict.rebatched (n : ℕ) : Verdict E → Verdict E
  | accepted candidate t => accepted candidate (t.rebatched n)
  | exhausted t => exhausted (t.rebatched n)

variable {K : Type} [NumericScalar K] {p : Points.Problem K E} {steps : ℕ} {s : Points.State K E} {t : Tally}

theorem scan_timeouts_le {v : Verdict E} (h : scan o c p steps s t = .ok v) : t.timeouts ≤ v.tally.timeouts := by
  induction steps generalizing s t with
  | zero => cases h
  | succ steps ih =>
    rw [scan] at h
    split at h
    · cases h
      exact (Tally.timeouts_closeBatch o t).ge
    · exact ih h
    · split at h
      · cases h
      · next hjudge =>
        cases h
        exact (judge_counts hjudge).1
      · next hjudge =>
        have := ih h
        rw [Tally.timeouts_closeFullBatch] at this
        exact (judge_counts hjudge).1.trans this

/-- A scan that stays below the threshold, because it has too few steps to reach it or because it ends below it, goes the
same way for every batch size. -/
theorem scan_rebatched (b : ℕ) (n : ℕ) (hrecent : t.recent = t.timeouts)
    (hquiet : t.timeouts + steps < o.growthThreshold ∨
      ∃ v, scan o c p steps s t = .ok v ∧ v.tally.timeouts < o.growthThreshold) :
    (∃ m, scan (o.rebatched b) c p steps s (t.rebatched n) = (scan o c p steps s t).map (Verdict.rebatched m)) ∧
      ∀ v, scan o c p steps s t = .ok v →
        v.tally.recent = v.tally.timeouts ∧ v.tally.timeouts ≤ t.timeouts + steps := by
  induction steps generalizing s t n with
  | zero => exact ⟨⟨0, rfl⟩, fun v hv => by cases hv⟩
  | succ steps ih =>
    -- A tally on the way is below the threshold: either there are too few steps, or the end of the scan is below it and
    -- the number of candidates given up never falls.
    have hlow : ∀ t' : Tally, t'.timeouts ≤ t.timeouts + 1 →
        (∀ v, scan o c p (steps + 1) s t = .ok v → t'.timeouts ≤ v.tally.timeouts) →
        t'.timeouts < o.growthThreshold := by
      intro t' hup hend
      rcases hquiet with hfew | ⟨v, hv, hbelow⟩
      · omega
      · exact (hend v hv).trans_lt hbelow
    have hthreshold : t.recent < o.growthThreshold :=
      hrecent ▸ hlow t (Nat.le_succ _) fun v hv => scan_timeouts_le hv
    rw [scan, scan]
    rw [scan] at hquiet
    cases hstep : Points.step p s with
    | done =>
      rw [Tally.closeBatch_rebatched hthreshold, Tally.closeBatch_eq hthreshold]
      refine ⟨⟨0, rfl⟩, fun v hv => ?_⟩
      cases hv
      exact ⟨hrecent, Nat.le_add_right _ _⟩
    | quiet s' =>
      rw [hstep] at hquiet
      dsimp only at hquiet
      obtain ⟨hmap, hcounts⟩ := ih n hrecent (hquiet.imp_left fun h => by omega)
      exact ⟨hmap, fun v hv => ⟨(hcounts v hv).1, (hcounts v hv).2.trans (by omega)⟩⟩
    | found u s' =>
      rw [hstep] at hquiet
      dsimp only at hquiet ⊢
      rw [judge_rebatched]
      cases hjudge : judge o c t u with
      | error failure => exact ⟨⟨0, rfl⟩, fun v hv => by cases hv⟩
      | ok result =>
        obtain ⟨found, t'⟩ := result
        obtain ⟨hmono, hup, hbalance⟩ := judge_counts hjudge
        have hrecent' : t'.recent = t'.timeouts := by omega
        rw [hjudge] at hquiet
        cases found with
        | some candidate =>
          refine ⟨⟨n + 1, rfl⟩, fun v hv => ?_⟩
          cases hv
          exact ⟨hrecent', by dsimp only [Verdict.tally]; omega⟩
        | none =>
          have hthreshold' : t'.recent < o.growthThreshold := by
            rw [hrecent']
            refine hlow t' hup fun v hv => ?_
            rw [scan, hstep] at hv
            dsimp only at hv
            rw [hjudge] at hv
            exact (Tally.timeouts_closeFullBatch o t').ge.trans (scan_timeouts_le hv)
          obtain ⟨k, k', hk, hk'⟩ := Tally.closeFullBatch_rebatched hthreshold' b (n + 1)
          dsimp only [Except.map] at hquiet ⊢
          rw [hk] at hquiet ⊢
          rw [hk']
          obtain ⟨hmap, hcounts⟩ := ih (t := t'.rebatched k) k' hrecent' (hquiet.imp_left fun h => by
            dsimp only [Tally.rebatched]
            omega)
          refine ⟨hmap, fun v hv => ⟨(hcounts v hv).1, (hcounts v hv).2.trans ?_⟩⟩
          dsimp only [Tally.rebatched]
          omega

/-! ### All exponents -/

variable {first second : Region K E} {pair? : Option (UprightPair K E)} {k more : ℕ}

theorem scanFrom_timeouts_le {result : ℕ × Accepted E × Tally}
    (h : scanFrom o c first second pair? k more t = .ok result) : t.timeouts ≤ result.2.2.timeouts := by
  induction more generalizing k t with
  | zero => cases h
  | succ more ih =>
    rw [scanFrom] at h
    dsimp only at h
    split at h
    · cases h
    · next hscan =>
      cases h
      exact scan_timeouts_le hscan
    · next hscan => exact (scan_timeouts_le hscan).trans (ih h)

theorem scanFrom_rebatched (b : ℕ) (n : ℕ) (hrecent : t.recent = t.timeouts)
    (hquiet : t.timeouts + more * Progress.patience < o.growthThreshold ∨
      ∃ result, scanFrom o c first second pair? k more t = .ok result ∧ result.2.2.timeouts < o.growthThreshold) :
    ∃ m, scanFrom (o.rebatched b) c first second pair? k more (t.rebatched n) =
      (scanFrom o c first second pair? k more t).map fun r => (r.1, r.2.1, r.2.2.rebatched m) := by
  induction more generalizing k t n with
  | zero => exact ⟨0, rfl⟩
  | succ more ih =>
    rw [scanFrom] at hquiet
    rw [scanFrom, scanFrom]
    dsimp only at hquiet ⊢
    set q := (Points.enumeration first second pair? k).1
    set s := (Points.enumeration first second pair? k).2
    have hscan : t.timeouts + Progress.patience < o.growthThreshold ∨
        ∃ v, scan o c q Progress.patience s t = .ok v ∧ v.tally.timeouts < o.growthThreshold := by
      rcases hquiet with hfew | ⟨result, hresult, hbelow⟩
      · exact .inl (by rw [Nat.add_mul] at hfew; omega)
      · split at hresult
        · cases hresult
        · next hv =>
          cases hresult
          exact .inr ⟨_, hv, hbelow⟩
        · next hv => exact .inr ⟨_, hv, (scanFrom_timeouts_le hresult).trans_lt hbelow⟩
    obtain ⟨⟨m, hm⟩, hcounts⟩ := scan_rebatched b n hrecent hscan
    rw [hm]
    cases hv : scan o c q Progress.patience s t with
    | error failure => exact ⟨0, rfl⟩
    | ok v =>
      rw [hv] at hquiet
      cases v with
      | accepted candidate t' => exact ⟨m, rfl⟩
      | exhausted t' =>
        obtain ⟨hrecent', hup⟩ := hcounts _ hv
        dsimp only [Verdict.tally] at hrecent' hup
        refine ih (t := t') m hrecent' (hquiet.imp_left fun h => ?_)
        rw [Nat.add_mul] at h
        omega

theorem run_rebatched (b : ℕ)
    (hquiet : (o.maxExponent + 1) * Progress.patience < o.growthThreshold ∨
      ∃ result, run K E o c = .ok result ∧ result.2.2.timeouts < o.growthThreshold) :
    ∃ m, run K E (o.rebatched b) c = (run K E o c).map fun r => (r.1, r.2.1, r.2.2.rebatched m) := by
  simp only [run, bind, Except.bind] at hquiet ⊢
  rw [show (o.rebatched b).theta = o.theta from rfl, show (o.rebatched b).epsilon = o.epsilon from rfl]
  generalize (Segment.ofRotation o.theta.eval o.epsilon.eval : Except Failure (Segment K)) = segment? at hquiet ⊢
  cases segment? with
  | error failure => exact ⟨0, rfl⟩
  | ok segment =>
    dsimp only at hquiet ⊢
    generalize (UprightPair.ofEllipses (segment.region : Region K E).ellipse (Disk.region : Region K E).ellipse :
      Except Failure (Option (UprightPair K E))) = pair?? at hquiet ⊢
    cases pair?? with
    | error failure => exact ⟨0, rfl⟩
    | ok pair? => exact scanFrom_rebatched b 0 rfl (hquiet.imp_left fun h => by dsimp only; omega)

/-- What is done with the accepted candidate. -/
def finish (o : Options) (c : Precision) (found : ℕ × Accepted E × Tally) : Except Failure Approximation := do
  let word ← Synthesis.decompose (QubitOp.ofColumn found.2.1.u found.2.1.t)
  if o.verify then
    verify E o c word
  return {
    word := word
    precision := c
    error := found.2.1.error
    exponent := found.1
    tried := found.2.2.tried
    timeouts := found.2.2.timeouts }

theorem finish_counts {found : ℕ × Accepted E × Tally} {a : Approximation} (h : finish o c found = .ok a) :
    a.exponent = found.1 ∧ a.tried = found.2.2.tried ∧ a.timeouts = found.2.2.timeouts := by
  simp only [finish, bind, Except.bind] at h
  split at h
  · cases h
  · split at h
    · split at h
      · cases h
      · cases h
        exact ⟨rfl, rfl, rfl⟩
    · cases h
      exact ⟨rfl, rfl, rfl⟩

end Search

theorem approximateOver_eq (E : Type) [Exponent E] (o : Options) : approximateOver E o = o.validate.bind fun _ =>
    (Search.run (Approx o.precision.bits) E o o.precision).bind (Search.finish o o.precision) := rfl

theorem Options.validate_rebatched {o : Options} {b : ℕ} (ho : 0 < o.batchSize) (hb : 0 < b) :
    (o.rebatched b).validate = o.validate := by
  simp only [validate, rebatched, ho.ne', hb.ne']
  rfl

/-- The batch size is only a matter of scheduling as long as the budget stays as it is: if there are fewer steps than
candidates it takes to raise it, or if the search ended before so many had been given up, then the outcome is the same for
every batch size. -/
theorem approximate_rebatched {E : Type} [Exponent E] {o : Options} {b : ℕ} (ho : 0 < o.batchSize) (hb : 0 < b)
    (hquiet : (o.maxExponent + 1) * Progress.patience < o.growthThreshold ∨
      ∃ a, approximateOver E o = .ok a ∧ a.timeouts < o.growthThreshold) :
    approximateOver E (o.rebatched b) = approximateOver E o := by
  rw [approximateOver_eq, approximateOver_eq, Options.validate_rebatched ho hb]
  rw [approximateOver_eq] at hquiet
  cases hvalidate : o.validate with
  | error failure => simp only [Except.bind]
  | ok _ =>
    rw [hvalidate] at hquiet
    obtain ⟨m, hm⟩ := Search.run_rebatched (E := E) (K := Approx o.precision.bits) (c := o.precision) b
      (hquiet.imp_right fun ⟨a, ha, hbelow⟩ => by
        cases hrun : Search.run (Approx o.precision.bits) E o o.precision with
        | error failure =>
          simp only [hrun, Except.bind] at ha
          cases ha
        | ok found =>
          simp only [hrun, Except.bind] at ha
          exact ⟨found, rfl, (Search.finish_counts ha).2.2 ▸ hbelow⟩)
    change (Search.run (Approx o.precision.bits) E (o.rebatched b) o.precision).bind
      (Search.finish (o.rebatched b) o.precision) = _
    rw [hm]
    cases Search.run (Approx o.precision.bits) E o o.precision <;> rfl

/-- A search in batches of fifty and in batches of eight. -/
theorem approximate_rebatched_half_fifth :
    approximate ((Options.ofLiterals ⟨1, 2, false, by decide⟩ ⟨1, 5, false, by decide⟩).rebatched 50) =
      approximate (.ofLiterals ⟨1, 2, false, by decide⟩ ⟨1, 5, false, by decide⟩) := by
  obtain ⟨a, ha, -, htimeouts⟩ := exists_approximation_half_fifth
  exact approximate_rebatched (by decide) (by decide) (.inr ⟨a, ha, htimeouts.trans_lt (by decide)⟩)

end CliffordT

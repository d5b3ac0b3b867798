import CliffordT.Proofs.Grid.Progress
import CliffordT.Proofs.NormEquation.Solve
import CliffordT.Proofs.Plane.Reduction
import CliffordT.Proofs.Rotation.Batches

/-!
The order in which a search judges its candidates.

The candidates of all exponents are lined up, exponent by exponent, and the line is cut into batches at every exponent. A
trial is a candidate together with all that its judgement depends on: its position in the line, and the budget of its batch.
The search is over at the first trial that is not passed, and its counts are those of the trials up to there.

The equations of a batch may be attempted before the first of its candidates is judged, and some of them may be left
for later: the outcome is the same.
-/

namespace CliffordT

namespace Progress

variable {σ α : Type} {step : σ → Progress σ α}

/-- The values yielded within a number of steps, and whether that was all. -/
def within (step : σ → Progress σ α) : (steps : ℕ) → σ → List α × Bool
  | 0, _ => ([], false)
  | steps + 1, s =>
    match step s with
    | .done => ([], true)
    | .quiet s => within step steps s
    | .found a s => (a :: (within step steps s).1, (within step steps s).2)

theorem within_spec (steps : ℕ) (s : σ) :
    ∃ t, Run step s (within step steps s).1 t ∧ ((within step steps s).2 = true → step t = .done) := by
  induction steps generalizing s with
  | zero => exact ⟨s, .refl s, fun h => by cases h⟩
  | succ steps ih =>
    rw [within]
    cases hs : step s with
    | done => exact ⟨s, .refl s, fun _ => hs⟩
    | quiet s' =>
      obtain ⟨t, hrun, hend⟩ := ih s'
      exact ⟨t, .quiet hs hrun, hend⟩
    | found a s' =>
      obtain ⟨t, hrun, hend⟩ := ih s'
      exact ⟨t, .found hs hrun, hend⟩

end Progress

namespace Search

open Exponent

variable {E : Type} [Exponent E]

/-! ### One candidate -/

/-- What becomes of a candidate. -/
inductive Judgement (E : Type) where
  /-- It is completed and close enough. -/
  | accepted (candidate : Accepted E)
  /-- It cannot be completed, or is too far away. -/
  | passedOver
  /-- It is given up for lack of budget. -/
  | timedOut
  /-- It ends the search with a failure. -/
  | failed (failure : Failure)

/-- Whether the search goes on to the next candidate. -/
def Judgement.IsPass : Judgement E → Prop
  | passedOver | timedOut => True
  | accepted _ | failed _ => False

/-- Whether the candidate is given up for lack of budget. -/
def Judgement.isTimeout : Judgement E → Bool
  | timedOut => true
  | _ => false

/-- The attempt to complete the candidate at a position. -/
def attempt (o : Options) (effort position : ℕ) (u : CycloFrac E) : Except Failure (CycloFrac E) :=
  NormEquation.solveFrac (1 - CycloFrac.absSq u) effort (Words.ofSeed (o.seed + UInt64.ofNat position))

/-- What becomes of a candidate after the attempt to complete it. -/
def judgement (o : Options) (c : Precision) (u : CycloFrac E) : Except Failure (CycloFrac E) → Judgement E
  | .error (.unfactored _ _) => .timedOut
  | .error failure => if failure.isRejection then .passedOver else .failed failure
  | .ok w =>
    if (QubitOp.ofColumn u w).isUnitary then
      match checkError o u c o.retries with
      | .error failure => .failed failure
      | .ok none => .passedOver
      | .ok (some error) => .accepted ⟨u, w, error⟩
    else .failed (.broken (.notCompleted (toString u) (toString w)))

/-- The tally after a candidate. -/
def Tally.after (t : Tally) (timeout : Bool) : Tally :=
  { t with
    recent := t.recent + timeout.toNat
    timeouts := t.timeouts + timeout.toNat
    tried := t.tried + 1
    inBatch := t.inBatch + 1 }

/-- A judgement as a result of the search. -/
def Judgement.result (t : Tally) : Judgement E → Except Failure (Option (Accepted E) × Tally)
  | accepted candidate => .ok (some candidate, t.after false)
  | passedOver => .ok (none, t.after false)
  | timedOut => .ok (none, t.after true)
  | failed failure => .error failure

variable {o : Options} {c : Precision}

/-- A solved equation completes its candidate to a unitary matrix if twice the exponent of the candidate can be stored. -/
theorem isUnitary_of_attempt {effort position : ℕ} {u w : CycloFrac E} (hE : Stores E (2 * load u.exp))
    (h : attempt o effort position u = .ok w) : (QubitOp.ofColumn u w).isUnitary = true := by
  have hsquare : load (CycloFrac.absSq u).exp = 2 * load u.exp := load_store
  have hexp : load (1 - CycloFrac.absSq u : QuadFrac E).exp = 2 * load u.exp := by
    rw [RootFrac.exp_sub, show load (1 : QuadFrac E).exp = 0 from load_zero, Nat.zero_max, hsquare]
  have hle : load w.exp ≤ load u.exp := by
    have := NormEquation.two_mul_exp_le_of_solveFrac h
    omega
  have hsound : (CycloFrac.absSq w).same (1 - CycloFrac.absSq u) = true := by
    refine (NormEquation.same_iff_of_solveFrac h).2 ?_
    have hreduced := RootFrac.load_reduce_le (1 - CycloFrac.absSq u : QuadFrac E)
    -- the exponent of the equation is even, so an odd one of the reduced equation is smaller
    exact or_iff_not_imp_left.2 fun hodd => hE.of_le (by omega)
  have hdepth := QubitOp.depth_ofColumn_le u w
  have hcolumn : max (load u.exp) (load w.exp) = load u.exp := max_eq_left hle
  rw [← QubitOp.isUnitary_unbounded (hE.of_le (by omega)), QubitOp.unbounded_ofColumn, QubitOp.isUnitary_ofColumn_iff,
    QubitOp.same_one_unbounded (hE.of_le (by omega)), RootFrac.same_iff, RootFrac.value_add, RootFrac.value_one]
  rw [RootFrac.same_iff, RootFrac.value_sub, RootFrac.value_one] at hsound
  rw [hsound]
  ring

theorem judge_eq (o : Options) (c : Precision) (t : Tally) (u : CycloFrac E) :
    judge o c t u = (judgement o c u (attempt o t.effort t.tried u)).result t := by
  rw [judge]
  dsimp only
  rw [show NormEquation.solveFrac (1 - CycloFrac.absSq u) t.effort (Words.ofSeed (o.seed + UInt64.ofNat t.tried)) =
    attempt o t.effort t.tried u from rfl]
  cases attempt o t.effort t.tried u with
  | error failure => cases failure <;> rfl
  | ok w =>
    cases hcolumn : (QubitOp.ofColumn u w).isUnitary with
    | false => simp only [judgement, hcolumn, Bool.not_false, Bool.false_eq_true, if_true, if_false, Judgement.result]
    | true =>
      simp only [judgement, hcolumn, Bool.not_true, Bool.false_eq_true, if_true, if_false]
      cases checkError o u c o.retries with
      | error failure => rfl
      | ok found => cases found <;> rfl

/-! ### Batches -/

/-- The equations of a batch, attempted beforehand except at the positions that are left for later. -/
def attemptsAhead (o : Options) (effort : ℕ) (left : ℕ → Bool) :
    (position : ℕ) → List (CycloFrac E) → List (CycloFrac E × Option (Except Failure (CycloFrac E)))
  | _, [] => []
  | position, u :: us =>
    (u, if left position then none else some (attempt o effort position u)) :: attemptsAhead o effort left (position + 1) us

/-- Judges a batch in order. An equation that has been left for later is attempted now. -/
def processBatch (o : Options) (c : Precision) :
    List (CycloFrac E × Option (Except Failure (CycloFrac E))) → Tally → Except Failure (Option (Accepted E) × Tally)
  | [], t => .ok (none, t)
  | (u, ahead?) :: rest, t =>
    match (judgement o c u (ahead?.getD (attempt o t.effort t.tried u))).result t with
    | .error failure => .error failure
    | .ok (some candidate, t) => .ok (some candidate, t)
    | .ok (none, t) => processBatch o c rest t

/-- Judges batches of candidates, each with its exponent, and reviews the budget after each of them. -/
def searchBatches (o : Options) (c : Precision) (left : ℕ → Bool) (after : Tally → Except Failure (ℕ × Accepted E × Tally)) :
    List (ℕ × List (CycloFrac E)) → Tally → Except Failure (ℕ × Accepted E × Tally)
  | [], t => after t
  | (k, batch) :: rest, t =>
    match processBatch o c (attemptsAhead o t.effort left t.tried batch) t with
    | .error failure => .error failure
    | .ok (some candidate, t) => .ok (k, candidate, t)
    | .ok (none, t) => searchBatches o c left after rest (t.review o)

/-- A list cut into parts of a given length; the last one may be shorter. -/
def inBatches {α : Type} (n : ℕ) : List α → List (List α)
  | [] => []
  | a :: as => (a :: as.take (n - 1)) :: inBatches n (as.drop (n - 1))
termination_by as => as.length
decreasing_by simp only [List.length_drop, List.length_cons]; omega

theorem flatten_inBatches {α : Type} (n : ℕ) (as : List α) : (inBatches n as).flatten = as := by
  induction as using inBatches.induct n with
  | case1 => rw [inBatches, List.flatten_nil]
  | case2 a as ih => rw [inBatches, List.flatten_cons, ih, List.cons_append, List.take_append_drop]

/-- The batches of candidates of several exponents. -/
def batches (n : ℕ) (line : List (ℕ × List (CycloFrac E))) : List (ℕ × List (CycloFrac E)) :=
  line.flatMap fun x => (inBatches n x.2).map fun batch => (x.1, batch)

/-! ### From single candidates to batches -/

/-- Judges candidates of one exponent, one by one. -/
def judgeAll (o : Options) (c : Precision) (k : ℕ) (after : Tally → Except Failure (ℕ × Accepted E × Tally)) :
    List (CycloFrac E) → Tally → Except Failure (ℕ × Accepted E × Tally)
  | [], t => after (t.closeBatch o)
  | u :: us, t =>
    match judge o c t u with
    | .error failure => .error failure
    | .ok (some candidate, t) => .ok (k, candidate, t)
    | .ok (none, t) => judgeAll o c k after us (t.closeFullBatch o)

variable {t : Tally} {left : ℕ → Bool} {after : Tally → Except Failure (ℕ × Accepted E × Tally)}

theorem scan_eq_judgeAll {K : Type} [NumericScalar K] (p : Points.Problem K E) (steps : ℕ) (s : Points.State K E) (t : Tally)
    (k : ℕ) :
    (match scan o c p steps s t with
      | .error failure => .error failure
      | .ok (.accepted candidate t) => .ok (k, candidate, t)
      | .ok (.exhausted t) => after t) =
    judgeAll o c k (fun t => if (Progress.within (Points.step p) steps s).2 then after t else .error .unfinished)
      (Progress.within (Points.step p) steps s).1 t := by
  induction steps generalizing s t with
  | zero => rfl
  | succ steps ih =>
    rw [scan, Progress.within]
    cases Points.step p s with
    | done => rfl
    | quiet s' => exact ih s' t
    | found u s' =>
      dsimp only
      rw [judgeAll]
      cases judge o c t u with
      | error failure => rfl
      | ok r =>
        obtain ⟨_ | candidate, t'⟩ := r
        · exact ih s' _
        · rfl

omit [Exponent E] in
theorem Judgement.result_none {j : Judgement E} {t' : Tally} (h : j.result t = .ok (none, t')) :
    t' = t.after j.isTimeout := by
  cases j with
  | accepted candidate => cases h
  | failed failure => cases h
  | passedOver =>
    cases h
    rfl
  | timedOut =>
    cases h
    rfl

/-- What has been attempted beforehand makes no difference. -/
theorem processBatch_cons (left : ℕ → Bool) (t : Tally) (u : CycloFrac E) (us : List (CycloFrac E)) :
    processBatch o c (attemptsAhead o t.effort left t.tried (u :: us)) t =
      match judge o c t u with
      | .error failure => .error failure
      | .ok (some candidate, t) => .ok (some candidate, t)
      | .ok (none, t) => processBatch o c (attemptsAhead o t.effort left t.tried us) t := by
  have hahead : (if left t.tried then none else some (attempt o t.effort t.tried u)).getD (attempt o t.effort t.tried u) =
      attempt o t.effort t.tried u := by
    split <;> rfl
  rw [attemptsAhead, processBatch, hahead, judge_eq]
  cases hresult : (judgement o c u (attempt o t.effort t.tried u)).result t with
  | error failure => rfl
  | ok r =>
    obtain ⟨_ | candidate, t'⟩ := r
    · rw [Judgement.result_none hresult]
      rfl
    · rfl

/-- The candidates up to the end of the batch, and the others after the review. -/
theorem judgeAll_eq_processBatch (left : ℕ → Bool) (k : ℕ) {us : List (CycloFrac E)} (hplace : t.inBatch < o.batchSize)
    (hwork : us ≠ [] ∨ t.inBatch ≠ 0) :
    judgeAll o c k after us t =
      match processBatch o c (attemptsAhead o t.effort left t.tried (us.take (o.batchSize - t.inBatch))) t with
      | .error failure => .error failure
      | .ok (some candidate, t) => .ok (k, candidate, t)
      | .ok (none, t') => judgeAll o c k after (us.drop (o.batchSize - t.inBatch)) (t'.review o) := by
  have hreview (t : Tally) : (t.review o).closeBatch o = t.review o := by
    rw [Tally.closeBatch, if_pos]
    rw [Tally.review]
    split <;> rfl
  induction us generalizing t with
  | nil =>
    have hopen := hwork.resolve_left (· rfl)
    rw [List.take_nil, List.drop_nil, judgeAll, attemptsAhead, processBatch]
    dsimp only
    rw [judgeAll, hreview, Tally.closeBatch, if_neg hopen]
  | cons u us ih =>
    obtain ⟨n, hn⟩ : ∃ n, o.batchSize - t.inBatch = n + 1 := ⟨o.batchSize - t.inBatch - 1, by omega⟩
    rw [hn, List.take_succ_cons, List.drop_succ_cons, processBatch_cons, judgeAll, judge_eq]
    cases hresult : (judgement o c u (attempt o t.effort t.tried u)).result t with
    | error failure => rfl
    | ok r =>
      obtain ⟨_ | candidate, t'⟩ := r
      · obtain rfl := Judgement.result_none hresult
        dsimp only
        set t' := t.after (judgement o c u (attempt o t.effort t.tried u)).isTimeout with ht'
        have hnext : t'.inBatch = t.inBatch + 1 := rfl
        by_cases hfull : o.batchSize ≤ t'.inBatch
        · obtain rfl : n = 0 := by omega
          rw [Tally.closeFullBatch, if_pos hfull, List.take_zero, List.drop_zero, attemptsAhead, processBatch]
        · rw [Tally.closeFullBatch, if_neg hfull, ih (by omega) (.inr (by omega)), show o.batchSize - t'.inBatch = n by omega]
      · rfl

theorem judgeAll_eq_searchBatches {after' : Tally → Except Failure (ℕ × Accepted E × Tally)} (left : ℕ → Bool) (k : ℕ)
    (us : List (CycloFrac E)) (hsize : 0 < o.batchSize) (hplace : t.inBatch = 0)
    (hafter : ∀ t : Tally, t.inBatch = 0 → after t = after' t) :
    judgeAll o c k after us t =
      searchBatches o c left after' ((inBatches o.batchSize us).map fun batch => (k, batch)) t := by
  induction us using inBatches.induct o.batchSize generalizing t with
  | case1 =>
    rw [inBatches, List.map_nil, searchBatches, judgeAll, Tally.closeBatch, if_pos hplace, hafter t hplace]
  | case2 u us ih =>
    obtain ⟨n, hn⟩ : ∃ n, o.batchSize = n + 1 := ⟨o.batchSize - 1, by omega⟩
    rw [judgeAll_eq_processBatch left k (by omega) (.inl (List.cons_ne_nil u us)), inBatches, List.map_cons,
      searchBatches, hplace]
    rw [hn] at ih ⊢
    rw [Nat.sub_zero, List.take_succ_cons, List.drop_succ_cons, Nat.add_sub_cancel] at *
    cases processBatch o c (attemptsAhead o t.effort left t.tried (u :: us.take n)) t with
    | error failure => rfl
    | ok r =>
      obtain ⟨_ | candidate, t'⟩ := r
      · refine ih ?_
        rw [Tally.review]
        split <;> rfl
      · rfl

theorem searchBatches_append (xs ys : List (ℕ × List (CycloFrac E))) (t : Tally) :
    searchBatches o c left after (xs ++ ys) t = searchBatches o c left (searchBatches o c left after ys) xs t := by
  induction xs generalizing t with
  | nil => rfl
  | cons x xs ih =>
    rw [List.cons_append, searchBatches, searchBatches]
    split
    · rfl
    · rfl
    · exact ih _

/-! ### The line of candidates -/

section Line

variable {K : Type} [NumericScalar K] (first second : Region K E) (pair? : Option (UprightPair K E))

/-- The points of one exponent, and whether their enumeration comes to its end. -/
def stream (k : ℕ) : List (CycloFrac E) × Bool :=
  Progress.within (Points.step (Points.enumeration first second pair? k).1) Progress.patience
    (Points.enumeration first second pair? k).2

/-- The exponents from `k` on whose points are enumerated: all, unless an enumeration does not come to its end. -/
def reached (k : ℕ) : (more : ℕ) → List ℕ
  | 0 => []
  | more + 1 => k :: if (stream first second pair? k).2 then reached (k + 1) more else []

/-- The candidates of some exponents. -/
def line (ks : List ℕ) : List (ℕ × List (CycloFrac E)) := ks.map fun k => (k, (stream first second pair? k).1)

/-- How a search ends that accepts no candidate. -/
def ending (o : Options) (ks : List ℕ) : Failure :=
  if ks.all fun k => (stream first second pair? k).2 then .exhausted o.maxExponent else .unfinished

theorem reached_eq_range' {k more : ℕ} (h : ∀ j < k + more, (stream first second pair? j).2 = true) :
    reached first second pair? k more = List.range' k more := by
  induction more generalizing k with
  | zero => rfl
  | succ more ih =>
    rw [reached, if_pos (h k (by omega)), ih fun j hj => h j (by omega), List.range'_succ]

theorem scanFrom_eq_searchBatches (o : Options) (c : Precision) (left : ℕ → Bool) (k more : ℕ) {t : Tally}
    (hsize : 0 < o.batchSize) (hplace : t.inBatch = 0) :
    scanFrom o c first second pair? k more t =
      searchBatches o c left (fun _ => .error (ending first second pair? o (reached first second pair? k more)))
        (batches o.batchSize (line first second pair? (reached first second pair? k more))) t := by
  induction more generalizing k t with
  | zero => rfl
  | succ more ih =>
    rw [scanFrom, reached, line, batches, List.map_cons, List.flatMap_cons, searchBatches_append]
    refine (scan_eq_judgeAll (Points.enumeration first second pair? k).1 Progress.patience
      (Points.enumeration first second pair? k).2 t k).trans ?_
    refine judgeAll_eq_searchBatches left k _ hsize hplace fun t ht => ?_
    change (if (stream first second pair? k).2 then scanFrom o c first second pair? (k + 1) more t else .error .unfinished) = _
    by_cases hended : (stream first second pair? k).2 = true
    · rw [if_pos hended, if_pos hended, ih (k + 1) ht, ending, ending, List.all_cons, hended, Bool.true_and]
      rfl
    · rw [if_neg hended, if_neg hended, ending, List.all_cons, Bool.eq_false_iff.2 hended, Bool.false_and]
      rfl

end Line

/-! ### Trials -/

/-- A candidate in its place. -/
structure Trial (E : Type) where
  /-- The denominator exponent. -/
  exponent : ℕ
  /-- The candidate. -/
  point : CycloFrac E
  /-- The number of candidates before it. -/
  position : ℕ
  /-- The budget of its batch. -/
  effort : ℕ

/-- What becomes of a candidate in its place. -/
def Trial.judgement (o : Options) (c : Precision) (x : Trial E) : Judgement E :=
  Search.judgement o c x.point (attempt o x.effort x.position x.point)

/-- The number of candidates given up for lack of budget. -/
def timeouts (o : Options) (c : Precision) (xs : List (Trial E)) : ℕ := xs.countP fun x => (x.judgement o c).isTimeout

/-- The trials of a batch. -/
def batchTrials (k effort : ℕ) : (position : ℕ) → List (CycloFrac E) → List (Trial E)
  | _, [] => []
  | position, u :: us => ⟨k, u, position, effort⟩ :: batchTrials k effort (position + 1) us

/-- The trials of batches, the first one starting at a position and with a budget. After a batch the budget is doubled if
enough candidates have been given up with the present one. -/
def trials (o : Options) (c : Precision) :
    List (ℕ × List (CycloFrac E)) → (position effort recent : ℕ) → List (Trial E)
  | [], _, _, _ => []
  | (k, batch) :: rest, position, effort, recent =>
    let now := batchTrials k effort position batch
    let recent := recent + timeouts o c now
    now ++
      if o.growthThreshold ≤ recent then trials o c rest (position + batch.length) (min (2 * effort) maxEffort) 0
      else trials o c rest (position + batch.length) effort recent

omit [Exponent E] in
theorem length_batchTrials (k effort position : ℕ) (us : List (CycloFrac E)) :
    (batchTrials k effort position us).length = us.length := by
  induction us generalizing position with
  | nil => rfl
  | cons u us ih => rw [batchTrials, List.length_cons, List.length_cons, ih]

omit [Exponent E] in
theorem map_position_batchTrials (k effort position : ℕ) (us : List (CycloFrac E)) :
    (batchTrials k effort position us).map Trial.position = List.range' position us.length := by
  induction us generalizing position with
  | nil => rfl
  | cons u us ih => rw [batchTrials, List.map_cons, ih, List.length_cons, List.range'_succ]

omit [Exponent E] in
theorem map_point_batchTrials (k effort position : ℕ) (us : List (CycloFrac E)) :
    (batchTrials k effort position us).map (fun x => (x.exponent, x.point)) = us.map fun u => (k, u) := by
  induction us generalizing position with
  | nil => rfl
  | cons u us ih => rw [batchTrials, List.map_cons, ih, List.map_cons]

/-- Positions are counted without a gap. -/
theorem map_position_trials (bs : List (ℕ × List (CycloFrac E))) (position effort recent : ℕ) :
    (trials o c bs position effort recent).map Trial.position =
      List.range' position (trials o c bs position effort recent).length := by
  induction bs generalizing position effort recent with
  | nil => rfl
  | cons x bs ih =>
    obtain ⟨k, batch⟩ := x
    rw [trials, List.map_append, map_position_batchTrials, List.length_append, length_batchTrials, List.range'_append_1.symm]
    split <;> rw [ih]

/-- The trials are about the candidates in their order. -/
theorem map_point_trials (bs : List (ℕ × List (CycloFrac E))) (position effort recent : ℕ) :
    (trials o c bs position effort recent).map (fun x => (x.exponent, x.point)) =
      bs.flatMap fun x => x.2.map fun u => (x.1, u) := by
  induction bs generalizing position effort recent with
  | nil => rfl
  | cons x bs ih =>
    obtain ⟨k, batch⟩ := x
    rw [trials, List.map_append, map_point_batchTrials, List.flatMap_cons]
    split <;> rw [ih]

omit [Exponent E] in
theorem flatMap_batches (n : ℕ) (xs : List (ℕ × List (CycloFrac E))) :
    ((batches n xs).flatMap fun x => x.2.map fun u => (x.1, u)) = xs.flatMap fun x => x.2.map fun u => (x.1, u) := by
  induction xs with
  | nil => rfl
  | cons x xs ih =>
    rw [batches, List.flatMap_cons, List.flatMap_append, List.flatMap_cons]
    congr 1
    rw [List.flatMap_map]
    change (inBatches n x.2).flatMap (List.map fun u => (x.1, u)) = _
    rw [List.flatMap_def, ← List.map_flatten, flatten_inBatches]

/-! ### The first trial that is not passed -/

/-- Goes through trials, counting them and those that are given up. -/
def settle (o : Options) (c : Precision) (final : Failure) :
    List (Trial E) → (tried timeouts : ℕ) → Except Failure (ℕ × Accepted E × ℕ × ℕ)
  | [], _, _ => .error final
  | x :: xs, tried, timeouts =>
    match x.judgement o c with
    | .accepted candidate => .ok (x.exponent, candidate, tried + 1, timeouts)
    | .passedOver => settle o c final xs (tried + 1) timeouts
    | .timedOut => settle o c final xs (tried + 1) (timeouts + 1)
    | .failed failure => .error failure

/-- What is known of the outcome of a search: the exponent, the candidate, and the counts. -/
def counted (r : ℕ × Accepted E × Tally) : ℕ × Accepted E × ℕ × ℕ := (r.1, r.2.1, r.2.2.tried, r.2.2.timeouts)

theorem settle_pass {final : Failure} {x : Trial E} {xs : List (Trial E)} (h : (x.judgement o c).IsPass) (tried gaveUp : ℕ) :
    settle o c final (x :: xs) tried gaveUp =
      settle o c final xs (tried + 1) (gaveUp + (x.judgement o c).isTimeout.toNat) := by
  rw [settle]
  cases hx : x.judgement o c with
  | accepted candidate => exact (hx ▸ h).elim
  | failed failure => exact (hx ▸ h).elim
  | passedOver => rfl
  | timedOut => rfl

theorem timeouts_cons (x : Trial E) (xs : List (Trial E)) :
    timeouts o c (x :: xs) = (x.judgement o c).isTimeout.toNat + timeouts o c xs := by
  rw [timeouts, List.countP_cons, add_comm]
  cases (x.judgement o c).isTimeout <;> rfl

theorem settle_append {final : Failure} {xs ys : List (Trial E)} (h : ∀ x ∈ xs, (x.judgement o c).IsPass) (tried gaveUp : ℕ) :
    settle o c final (xs ++ ys) tried gaveUp = settle o c final ys (tried + xs.length) (gaveUp + timeouts o c xs) := by
  induction xs generalizing tried gaveUp with
  | nil => rfl
  | cons x xs ih =>
    rw [List.cons_append, settle_pass (h x List.mem_cons_self), ih fun y hy => h y (List.mem_cons_of_mem x hy),
      timeouts_cons, List.length_cons, add_assoc, add_assoc, add_comm 1]

/-- A batch settles its trials. -/
theorem processBatch_settles (left : ℕ → Bool) (k : ℕ) (batch : List (CycloFrac E)) {rest : List (Trial E)} {final : Failure} {n : ℕ}
    (hn : n = timeouts o c (batchTrials k t.effort t.tried batch))
    (hafter : ∀ t' : Tally, t'.effort = t.effort → t'.recent = t.recent + n → t'.tried = t.tried + batch.length →
      t'.timeouts = t.timeouts + n →
        (after t').map counted = settle o c final rest (t.tried + batch.length) (t.timeouts + n)) :
    Except.map counted (match processBatch o c (attemptsAhead o t.effort left t.tried batch) t with
      | .error failure => .error failure
      | .ok (some candidate, t) => .ok (k, candidate, t)
      | .ok (none, t) => after t) =
        settle o c final (batchTrials k t.effort t.tried batch ++ rest) t.tried t.timeouts := by
  subst hn
  induction batch generalizing t with
  | nil => exact hafter t rfl rfl rfl rfl
  | cons u us ih =>
    rw [batchTrials, timeouts_cons, List.length_cons] at hafter
    rw [processBatch_cons, judge_eq, batchTrials, List.cons_append, settle]
    rw [show Trial.judgement o c ⟨k, u, t.tried, t.effort⟩ = judgement o c u (attempt o t.effort t.tried u) from rfl] at *
    have hlength : t.tried + 1 + us.length = t.tried + (us.length + 1) := by omega
    have hnext (b : Bool) (hb : (judgement o c u (attempt o t.effort t.tried u)).isTimeout = b) (t' : Tally)
        (heffort : t'.effort = t.effort)
        (hrecent : t'.recent = t.recent + b.toNat + timeouts o c (batchTrials k t.effort (t.tried + 1) us))
        (htried : t'.tried = t.tried + 1 + us.length)
        (htimeouts : t'.timeouts = t.timeouts + b.toNat + timeouts o c (batchTrials k t.effort (t.tried + 1) us)) :
        (after t').map counted = settle o c final rest (t.tried + 1 + us.length)
          (t.timeouts + b.toNat + timeouts o c (batchTrials k t.effort (t.tried + 1) us)) := by
      subst hb
      rw [add_assoc] at hrecent htimeouts
      rw [hlength, add_assoc]
      exact hafter t' heffort hrecent (htried.trans hlength) htimeouts
    cases hjudgement : judgement o c u (attempt o t.effort t.tried u) with
    | accepted candidate => rfl
    | failed failure => rfl
    | passedOver => exact ih (t := t.after false) (hnext false (by rw [hjudgement]; rfl))
    | timedOut => exact ih (t := t.after true) (hnext true (by rw [hjudgement]; rfl))

theorem searchBatches_settles (left : ℕ → Bool) (final : Failure) (bs : List (ℕ × List (CycloFrac E))) (t : Tally) :
    (searchBatches o c left (fun _ => .error final) bs t).map counted =
      settle o c final (trials o c bs t.tried t.effort t.recent) t.tried t.timeouts := by
  induction bs generalizing t with
  | nil => rfl
  | cons x bs ih =>
    obtain ⟨k, batch⟩ := x
    rw [searchBatches, trials]
    refine processBatch_settles left k batch rfl fun t' heffort hrecent htried htimeouts => ?_
    rw [ih, ← hrecent, ← htried, ← htimeouts, ← heffort, Tally.review]
    split <;> rfl

/-- The outcome of a search that judges trials in order, and ends at the first one that is not passed or with a failure. -/
structure TakesFirst (o : Options) (c : Precision) (xs : List (Trial E)) (final : Failure)
    (r : Except Failure (ℕ × Accepted E × Tally)) : Prop where
  /-- The first trial that is not passed is accepted. -/
  accepted : ∀ before x rest candidate, xs = before ++ x :: rest → (∀ y ∈ before, (y.judgement o c).IsPass) →
    x.judgement o c = .accepted candidate → ∃ tally, r = .ok (x.exponent, candidate, tally) ∧
      tally.tried = before.length + 1 ∧ tally.timeouts = timeouts o c before
  /-- The first trial that is not passed fails. -/
  failed : ∀ before x rest failure, xs = before ++ x :: rest → (∀ y ∈ before, (y.judgement o c).IsPass) →
    x.judgement o c = .failed failure → r = .error failure
  /-- All trials are passed. -/
  passed : (∀ x ∈ xs, (x.judgement o c).IsPass) → r = .error final

omit [Exponent E] in
theorem eq_error_of_counted {r : Except Failure (ℕ × Accepted E × Tally)} {failure : Failure}
    (h : r.map counted = .error failure) : r = .error failure := by
  cases r with
  | error e =>
    cases h
    rfl
  | ok found => cases h

theorem takesFirst_of_settles {xs : List (Trial E)} {final : Failure} {r : Except Failure (ℕ × Accepted E × Tally)}
    (h : r.map counted = settle o c final xs 0 0) : TakesFirst o c xs final r where
  accepted before x rest candidate hsplit hpass hx := by
    rw [hsplit, settle_append hpass, settle, hx, Nat.zero_add, Nat.zero_add] at h
    cases r with
    | error failure => cases h
    | ok found =>
      obtain ⟨k, candidate', tally⟩ := found
      simp only [Except.map, counted, Except.ok.injEq, Prod.mk.injEq] at h
      obtain ⟨rfl, rfl, htried, htimeouts⟩ := h
      exact ⟨tally, rfl, htried, htimeouts⟩
  failed before x rest failure hsplit hpass hx := by
    rw [hsplit, settle_append hpass, settle, hx] at h
    exact eq_error_of_counted h
  passed hpass := by
    rw [← List.append_nil xs, settle_append hpass, settle] at h
    exact eq_error_of_counted h

/-- An outcome that is not a failure is the one of an accepted trial. -/
theorem TakesFirst.exists_of_ok {xs : List (Trial E)} {final : Failure} {k : ℕ} {candidate : Accepted E} {tally : Tally}
    (h : TakesFirst o c xs final (.ok (k, candidate, tally))) :
    ∃ before x rest, xs = before ++ x :: rest ∧ (∀ y ∈ before, (y.judgement o c).IsPass) ∧
      x.judgement o c = .accepted candidate ∧ k = x.exponent ∧ tally.tried = before.length + 1 ∧
      tally.timeouts = timeouts o c before := by
  classical
  cases hfind : xs.find? fun x => ¬(x.judgement o c).IsPass with
  | none =>
    rw [List.find?_eq_none] at hfind
    cases h.passed fun x hx => by simpa using hfind x hx
  | some x =>
    obtain ⟨hx, before, rest, hsplit, hpass⟩ := List.find?_eq_some_iff_append.1 hfind
    replace hpass : ∀ y ∈ before, (y.judgement o c).IsPass := by simpa using hpass
    cases hjudgement : x.judgement o c with
    | passedOver => simp [hjudgement, Judgement.IsPass] at hx
    | timedOut => simp [hjudgement, Judgement.IsPass] at hx
    | failed failure => cases h.failed before x rest failure hsplit hpass hjudgement
    | accepted candidate' =>
      obtain ⟨_, hok, htried, htimeouts⟩ := h.accepted before x rest candidate' hsplit hpass hjudgement
      cases hok
      exact ⟨before, x, rest, hsplit, hpass, hjudgement, rfl, htried, htimeouts⟩

/-! ### The whole search -/

section Whole

variable {K : Type} [NumericScalar K]

/-- What a search prepares before it enumerates: the segment, and a map that makes it and the disk upright. -/
def setup (K E : Type) [NumericScalar K] [Exponent E] (o : Options) : Except Failure (Segment K × Option (UprightPair K E)) := do
  let segment : Segment K ← Segment.ofRotation o.theta.eval o.epsilon.eval
  let pair? ← UprightPair.ofEllipses (segment.region : Region K E).ellipse (Disk.region : Region K E).ellipse
  return (segment, pair?)

/-- The points of one exponent in the segment with their conjugates in the disk. -/
def candidates (segment : Segment K) (pair? : Option (UprightPair K E)) (k : ℕ) : List (CycloFrac E) × Bool :=
  stream segment.region Disk.region pair? k

/-- The exponents that a search may come to. -/
def exponents (o : Options) (segment : Segment K) (pair? : Option (UprightPair K E)) : List ℕ :=
  reached segment.region Disk.region pair? 0 (o.maxExponent + 1)

/-- The batches of a search. -/
def allBatches (o : Options) (segment : Segment K) (pair? : Option (UprightPair K E)) : List (ℕ × List (CycloFrac E)) :=
  batches o.batchSize ((exponents o segment pair?).map fun k => (k, (candidates segment pair? k).1))

/-- The trials of a search. -/
def allTrials (o : Options) (c : Precision) (segment : Segment K) (pair? : Option (UprightPair K E)) : List (Trial E) :=
  trials o c (allBatches o segment pair?) 0 o.effort 0

theorem run_eq (K E : Type) [NumericScalar K] [Exponent E] (o : Options) (c : Precision) :
    run K E o c = (setup K E o).bind fun r =>
      scanFrom o c r.1.region Disk.region r.2 0 (o.maxExponent + 1) ⟨o.effort, 0, 0, 0, 0⟩ := by
  simp only [run, setup, bind, Except.bind]
  split
  · rfl
  · next segment _ =>
    cases UprightPair.ofEllipses (E := E) (segment.region : Region K E).ellipse (Disk.region : Region K E).ellipse <;> rfl

theorem batchSize_pos_of_validate {o : Options} (h : o.validate = .ok ()) : 0 < o.batchSize := by
  rw [Options.validate] at h
  refine Nat.pos_of_ne_zero fun hzero => ?_
  rw [if_pos hzero] at h
  split at h <;> cases h

variable {segment : Segment K} {pair? : Option (UprightPair K E)}

theorem run_eq_searchBatches (c : Precision) (left : ℕ → Bool) (hvalid : o.validate = .ok ())
    (hsetup : setup K E o = .ok (segment, pair?)) :
    run K E o c = searchBatches o c left
      (fun _ => .error (ending segment.region Disk.region pair? o (exponents o segment pair?)))
      (allBatches o segment pair?) ⟨o.effort, 0, 0, 0, 0⟩ := by
  rw [run_eq, hsetup]
  exact scanFrom_eq_searchBatches _ _ _ o c left 0 _ (batchSize_pos_of_validate hvalid) rfl

theorem run_takesFirst (c : Precision) (hvalid : o.validate = .ok ()) (hsetup : setup K E o = .ok (segment, pair?)) :
    TakesFirst o c (allTrials o c segment pair?)
      (ending segment.region Disk.region pair? o (exponents o segment pair?)) (run K E o c) := by
  rw [run_eq_searchBatches c (fun _ => true) hvalid hsetup]
  exact takesFirst_of_settles (searchBatches_settles _ _ _ _)

theorem exponents_eq_range (h : ∀ k ≤ o.maxExponent, (candidates segment pair? k).2 = true) :
    exponents o segment pair? = List.range (o.maxExponent + 1) ∧
      ending segment.region Disk.region pair? o (exponents o segment pair?) = .exhausted o.maxExponent := by
  have hrange : exponents o segment pair? = List.range (o.maxExponent + 1) := by
    rw [List.range_eq_range', exponents, reached_eq_range']
    exact fun j hj => h j (by omega)
  refine ⟨hrange, ?_⟩
  rw [ending, hrange, if_pos]
  exact List.all_eq_true.2 fun k hk => h k (Nat.lt_succ_iff.1 (List.mem_range.1 hk))

theorem map_point_allTrials (o : Options) (c : Precision) (segment : Segment K) (pair? : Option (UprightPair K E)) :
    (allTrials o c segment pair?).map (fun x => (x.exponent, x.point)) =
      (exponents o segment pair?).flatMap fun k => (candidates segment pair? k).1.map fun u => (k, u) := by
  rw [allTrials, map_point_trials, allBatches, flatMap_batches, List.flatMap_map]

/-- How a search goes on after its preparation. -/
structure GoesThrough (o : Options) (c : Precision) (segment : Segment K) (pair? : Option (UprightPair K E)) : Prop where
  /-- The candidates of an exponent are the points that its enumeration yields, all of them if it comes to its end. -/
  points : ∀ k, ∃ t, Progress.Run (Points.step (Points.enumeration segment.region Disk.region pair? k).1)
      (Points.enumeration segment.region Disk.region pair? k).2 (candidates segment pair? k).1 t ∧
    ((candidates segment pair? k).2 = true →
      Points.step (Points.enumeration segment.region Disk.region pair? k).1 t = .done)
  /-- If all enumerations come to their ends, the search is exhausted only after all exponents. -/
  exponents_eq : (∀ k ≤ o.maxExponent, (candidates segment pair? k).2 = true) →
    exponents o segment pair? = List.range (o.maxExponent + 1) ∧
      ending segment.region Disk.region pair? o (exponents o segment pair?) = .exhausted o.maxExponent
  /-- The trials are about the candidates of all exponents, in their order. -/
  trials_eq : (allTrials o c segment pair?).map (fun x => (x.exponent, x.point)) =
    (exponents o segment pair?).flatMap fun k => (candidates segment pair? k).1.map fun u => (k, u)
  /-- Their positions are counted without a gap. -/
  positions_eq : (allTrials o c segment pair?).map Trial.position = List.range (allTrials o c segment pair?).length
  /-- The first trial that is not passed decides. -/
  first : TakesFirst o c (allTrials o c segment pair?)
    (ending segment.region Disk.region pair? o (exponents o segment pair?)) (run K E o c)
  /-- It makes no difference which equations of a batch are attempted before the batch is judged. -/
  ahead : ∀ left : ℕ → Bool, run K E o c = searchBatches o c left
    (fun _ => .error (ending segment.region Disk.region pair? o (exponents o segment pair?)))
    (allBatches o segment pair?) ⟨o.effort, 0, 0, 0, 0⟩

theorem goesThrough (c : Precision) (hvalid : o.validate = .ok ()) (hsetup : setup K E o = .ok (segment, pair?)) :
    GoesThrough o c segment pair? where
  points _ := Progress.within_spec _ _
  exponents_eq := exponents_eq_range
  trials_eq := map_point_allTrials o c segment pair?
  positions_eq := by rw [allTrials, map_position_trials, List.range_eq_range']
  first := run_takesFirst c hvalid hsetup
  ahead left := run_eq_searchBatches c left hvalid hsetup

end Whole

/-- The trial whose candidate an approximation has accepted, and the trials before it. -/
structure FoundAt (o : Options) (a : Approximation) (before : List (Trial E)) (x : Trial E) : Prop where
  /-- All trials before it are passed. -/
  passed : ∀ y ∈ before, (y.judgement o o.precision).IsPass
  /-- It is accepted itself. -/
  accepted : ∃ candidate, x.judgement o o.precision = .accepted candidate
  /-- The exponent is the one of the trial. -/
  exponent_eq : a.exponent = x.exponent
  /-- All trials up to this one are counted. -/
  tried_eq : a.tried = before.length + 1
  /-- So are those that are given up. -/
  timeouts_eq : a.timeouts = timeouts o o.precision before

theorem exists_of_approximate {o : Options} {a : Approximation} (h : approximateOver E o = .ok a) :
    o.validate = .ok () ∧ ∃ found, run (Approx o.precision.bits) E o o.precision = .ok found ∧
      a.exponent = found.1 ∧ a.tried = found.2.2.tried ∧ a.timeouts = found.2.2.timeouts := by
  rw [approximateOver_eq] at h
  obtain ⟨_, hvalid, h⟩ := exists_of_bind_ok h
  obtain ⟨found, hrun, h⟩ := exists_of_bind_ok h
  exact ⟨hvalid, found, hrun, finish_counts h⟩

theorem exists_foundAt {o : Options} {a : Approximation} (h : approximateOver E o = .ok a) :
    ∃ segment pair?, o.validate = .ok () ∧ setup (Approx o.precision.bits) E o = .ok (segment, pair?) ∧
      ∃ before x rest, allTrials o o.precision segment pair? = before ++ x :: rest ∧ FoundAt o a before x := by
  obtain ⟨hvalid, ⟨k, candidate, tally⟩, hrun, hk, htried, htimeouts⟩ := exists_of_approximate h
  cases hsetup : setup (Approx o.precision.bits) E o with
  | error failure =>
    rw [run_eq, hsetup] at hrun
    cases hrun
  | ok r =>
    obtain ⟨segment, pair?⟩ := r
    have hfirst := run_takesFirst o.precision hvalid hsetup
    rw [hrun] at hfirst
    obtain ⟨before, x, rest, hsplit, hpass, hjudgement, hk', htried', htimeouts'⟩ := hfirst.exists_of_ok
    exact ⟨segment, pair?, hvalid, rfl, before, x, rest, hsplit,
      ⟨hpass, ⟨candidate, hjudgement⟩, hk.trans hk', htried.trans htried', htimeouts.trans htimeouts'⟩⟩

/-- A search takes the first acceptable candidate. Its trials are the candidates of all exponents, in their order and without
a gap, each with the seed of its position and the budget of its batch; the first one that is not passed decides. What it
returns are the exponent and the position of that trial, and how many trials before it were given up. It makes no
difference which equations of a batch are attempted before the batch is judged. A candidate whose equation is solved is never
found to be incomplete, as long as twice its exponent can be stored. -/
theorem run_takes_first (E : Type) [Exponent E] :
    (∀ (K : Type) [NumericScalar K] (o : Options) (c : Precision), o.validate = .ok () →
      (∀ failure, setup K E o = .error failure → run K E o c = .error failure) ∧
      ∀ (segment : Segment K) (pair? : Option (UprightPair K E)), setup K E o = .ok (segment, pair?) →
        GoesThrough o c segment pair?) ∧
    (∀ (o : Options) (a : Approximation), approximateOver E o = .ok a →
      ∃ segment pair?, setup (Approx o.precision.bits) E o = .ok (segment, pair?) ∧
        ∃ before x rest, allTrials o o.precision segment pair? = before ++ x :: rest ∧ FoundAt o a before x) ∧
    ∀ (o : Options) (effort position : ℕ) (u w : CycloFrac E), Stores E (2 * load u.exp) →
      attempt o effort position u = .ok w → (QubitOp.ofColumn u w).isUnitary = true := by
  refine ⟨fun K _ o c hvalid => ⟨fun failure hsetup => by rw [run_eq, hsetup]; rfl, fun segment pair? hsetup =>
    goesThrough c hvalid hsetup⟩, fun o a ha => ?_, fun o effort position u w => isUnitary_of_attempt⟩
  obtain ⟨segment, pair?, -, hsetup, htrials⟩ := exists_foundAt ha
  exact ⟨segment, pair?, hsetup, htrials⟩

/-- The rotation by one half within one fifth: no trial before the accepted one is given up, and leaving every other equation
for later gives the same outcome. The candidate `1/√2` is completed. -/
theorem run_takes_first_half_fifth :
    ∃ o : Options, o = .ofLiterals ⟨1, 2, false, by decide⟩ ⟨1, 5, false, by decide⟩ ∧
      (∃ (a : Approximation) (segment : Segment (Approx o.precision.bits)) (pair? : Option (UprightPair _ UInt32))
          (before : List (Trial UInt32)) (x : Trial UInt32) (rest : List (Trial UInt32)),
        approximate o = .ok a ∧ setup (Approx o.precision.bits) UInt32 o = .ok (segment, pair?) ∧
        allTrials o o.precision segment pair? = before ++ x :: rest ∧ FoundAt o a before x ∧
        timeouts o o.precision before = 0 ∧
        run (Approx o.precision.bits) UInt32 o o.precision =
          searchBatches o o.precision (fun position => position % 2 = 1)
            (fun _ => .error (ending segment.region Disk.region pair? o (exponents o segment pair?)))
            (allBatches o segment pair?) ⟨o.effort, 0, 0, 0, 0⟩) ∧
      ∃ w, attempt o 1 0 (⟨⟨0, 0, 0, 1⟩, 1⟩ : CycloFrac) = .ok w ∧
        (QubitOp.ofColumn ⟨⟨0, 0, 0, 1⟩, 1⟩ w).isUnitary = true := by
  obtain ⟨a, ha, -, hzero⟩ := exists_approximation_half_fifth
  obtain ⟨hrun, hfound, hcompletes⟩ := run_takes_first UInt32
  obtain ⟨segment, pair?, hsetup, before, x, rest, hsplit, hx⟩ := hfound _ a ha
  have hfactor (words : Words) : Factor.factor ((1 : ℕ) : ℤ) 1 words = .ok ([], words) := by
    rw [Factor.factor_of_trialDivide one_pos (show _ = ([], 1) by decide +kernel)]
    simp [Factor.runs]
  have hquad (words : Words) : NormEquation.solveQuad ⟨1, 0⟩ 1 words = .ok 1 := by
    rw [NormEquation.solveQuad, show (QuadInt.norm ⟨1, 0⟩).natAbs = 1 by decide, hfactor,
      if_neg (by decide), if_neg (by decide)]
    change NormEquation.absorbUnit ⟨1, 0⟩ 1 = .ok 1
    decide +kernel
  obtain ⟨w, hw⟩ : ∃ w, attempt (.ofLiterals ⟨1, 2, false, by decide⟩ ⟨1, 5, false, by decide⟩) 1 0
      (⟨⟨0, 0, 0, 1⟩, 1⟩ : CycloFrac) = .ok w := by
    refine ⟨⟨1, 1⟩, ?_⟩
    rw [attempt, NormEquation.solveFrac_eq,
      show NormEquation.integral (1 - CycloFrac.absSq ⟨⟨0, 0, 0, 1⟩, 1⟩ : QuadFrac) = ⟨1, 0⟩ by decide +kernel, hquad]
    decide +kernel
  exact ⟨_, rfl, ⟨a, segment, pair?, before, x, rest, ha, hsetup, hsplit, hx, hx.timeouts_eq.symm.trans hzero,
    ((hrun _ _ _ rfl).2 segment pair? hsetup).ahead _⟩, w, hw, hcompletes _ _ _ _ _ (.of_lt (by decide)) hw⟩

end Search

end CliffordT

import CliffordT.Proofs.Gate.Exponent
import CliffordT.Proofs.Gate.Levels

/-!
Exact synthesis writes every unitary operator as a word of gates.

The steps that split off a front of the word all lower the exponent, above the floor because the first of the four
operators with a smaller exponent is taken, and below it because a shortest way to exponent zero has no other
steps. An operator of exponent zero has one entry in each row, and at most twelve gates write it.
-/

namespace CliffordT.Synthesis

open CycloInt QubitOp

variable {E : Type} [Exponent E]

/-- Steps that lower the exponent lead from one operator to another, and the word undoes them. -/
inductive Lowers : QubitOp ℕ → GateWord → QubitOp ℕ → Prop
  | refl (u : QubitOp ℕ) : Lowers u [] u
  | step {u v : QubitOp ℕ} {j : ℕ} {word : GateWord} (hj : j < 4) (hlt : (lower u j).exponent < u.exponent)
      (rest : Lowers (lower u j) word v) : Lowers u (raise j ++ word) v

namespace Lowers

variable {u v t : QubitOp ℕ} {word word' : GateWord}

theorem append (h : Lowers u word v) (h' : Lowers v word' t) : Lowers u (word ++ word') t := by
  induction h with
  | refl => exact h'
  | step hj hlt _ ih =>
    rw [List.append_assoc]
    exact .step hj hlt (ih h')

theorem act_equiv (h : Lowers u word v) : act word v ≈ u := by
  induction h with
  | refl u => exact Setoid.refl u
  | @step u v j word _ _ _ ih =>
    rw [act_append]
    exact Setoid.trans (act_congr ih (raise j)) (act_raise_lower u j)

theorem isUnitary (h : Lowers u word v) (hu : u.isUnitary = true) : v.isUnitary = true := by
  induction h with
  | refl => exact hu
  | step _ _ _ ih => exact ih (isUnitary_lower hu _)

end Lowers

/-! ### Above the floor -/

theorem descend_spec {u : QubitOp ℕ} (hu : u.isUnitary = true) :
    ∃ word v, descend u = .ok (word, v) ∧ Lowers u word v ∧ v.exponent < greedyFloor := by
  induction hs : u.exponent using Nat.strong_induction_on generalizing u with
  | _ s ih =>
    subst hs
    rw [descend]
    by_cases hfloor : u.exponent < greedyFloor
    · rw [if_pos hfloor]
      exact ⟨[], u, rfl, .refl u, hfloor⟩
    · rw [if_neg hfloor]
      have hpos : 0 < u.exponent := Nat.lt_of_lt_of_le (by decide) (Nat.not_lt.1 hfloor)
      split
      next hnone =>
        obtain ⟨j, hj, hlt⟩ := exists_lowering hu hpos
        have hnot := List.find?_eq_none.1 hnone j (List.mem_range.2 hj)
        exact absurd (decide_eq_true hlt) hnot
      next j hfind =>
        have hlt : (lower u j).exponent < u.exponent := by simpa using List.find?_some hfind
        have hj : j < 4 := List.mem_range.1 (List.mem_of_find?_eq_some hfind)
        obtain ⟨word, v, heq, hlow, hv⟩ := ih _ hlt (isUnitary_lower hu j) rfl
        exact ⟨raise j ++ word, v, by rw [heq], .step hj hlt hlow, hv⟩

/-! ### Below the floor -/

/-- The four steps of the search for exponent zero. -/
def stepMoves (s : GateWord × QubitOp E) : List (GateWord × QubitOp E) :=
  (List.range 4).map fun j => (s.1 ++ raise j, lower s.2 j)

/-- Whether the search has reached exponent zero. -/
def atZero (s : GateWord × QubitOp E) : Bool := decide (s.2.exponent = 0)

/-- States of a search are compared by their operators. -/
def alike (s t : GateWord × QubitOp E) : Bool := s.2.same t.2

theorem finish_eq (u : QubitOp E) : finish u =
    match Levels.find atZero stepMoves alike searchDepth [([], u)] [([], u)] with
    | some found => .ok found
    | none => .error (.broken (.farFromClifford u.text searchDepth)) := rfl

theorem alike_iff {s t : GateWord × QubitOp ℕ} : alike s t = true ↔ s.2 ≈ t.2 := Iff.rfl

theorem mem_stepMoves {s t : GateWord × QubitOp ℕ} :
    t ∈ stepMoves s ↔ ∃ j < 4, t = (s.1 ++ raise j, lower s.2 j) := by
  simp only [stepMoves, List.mem_map, List.mem_range]
  exact ⟨fun ⟨j, hj, h⟩ => ⟨j, hj, h.symm⟩, fun ⟨j, hj, h⟩ => ⟨j, hj, h.symm⟩⟩

theorem stepMoves_alike : Levels.Alike atZero (stepMoves (E := ℕ)) alike := by
  refine ⟨fun s => Setoid.refl s.2, fun s t h => ?_, fun s t h s' hs' => ?_⟩
  · rw [atZero, atZero, exponent_congr (alike_iff.1 h)]
  · obtain ⟨j, hj, rfl⟩ := mem_stepMoves.1 hs'
    exact ⟨_, mem_stepMoves.2 ⟨j, hj, rfl⟩, alike_iff.2 (lower_congr (alike_iff.1 h) j)⟩

/-- From exponent `s` exponent zero is `s - 1` steps away. -/
theorem exists_walk {u : QubitOp ℕ} (hu : u.isUnitary = true) (front : GateWord) :
    ∃ found, Levels.Walk stepMoves (u.exponent - 1) (front, u) found ∧ atZero found = true := by
  induction hs : u.exponent - 1 generalizing u front with
  | zero =>
    have := exponent_ne_one hu
    exact ⟨_, .refl _, decide_eq_true (show u.exponent = 0 by omega)⟩
  | succ n ih =>
    obtain ⟨j, hj, hlt⟩ := exists_lowering hu (by omega)
    have hn : (lower u j).exponent - 1 = n := by
      have := exponent_sub_one_le hu j
      omega
    obtain ⟨found, hwalk, hzero⟩ := ih (isUnitary_lower hu j) (front ++ raise j) hn
    exact ⟨found, .head (mem_stepMoves.2 ⟨j, hj, rfl⟩) hwalk, hzero⟩

/-- No path to exponent zero is shorter. -/
theorem exponent_sub_one_le_of_walk {n : ℕ} {s t : GateWord × QubitOp ℕ} (h : Levels.Walk stepMoves n s t)
    (ht : atZero t = true) (hs : s.2.isUnitary = true) : s.2.exponent - 1 ≤ n := by
  induction h with
  | refl s =>
    have hzero : s.2.exponent = 0 := of_decide_eq_true ht
    omega
  | head move _ ih =>
    obtain ⟨j, hj, rfl⟩ := mem_stepMoves.1 move
    have hrest := ih ht (isUnitary_lower hs j)
    have hstep := exponent_sub_one_le hs j
    exact hstep.trans (Nat.add_le_add_right hrest 1)

/-- A shortest path to exponent zero lowers the exponent at every step. -/
theorem lowers_of_walk {n : ℕ} {s t : GateWord × QubitOp ℕ} (h : Levels.Walk stepMoves n s t)
    (ht : atZero t = true) (hs : s.2.isUnitary = true) (hn : n ≤ s.2.exponent - 1) :
    ∃ word, t.1 = s.1 ++ word ∧ Lowers s.2 word t.2 := by
  induction h with
  | refl s => exact ⟨[], by simp, .refl s.2⟩
  | @head n s _ t move rest ih =>
    obtain ⟨j, hj, rfl⟩ := mem_stepMoves.1 move
    have hj' := isUnitary_lower hs j
    have hrest := exponent_sub_one_le_of_walk rest ht hj'
    have hstep := exponent_sub_one_le hs j
    dsimp only at hrest
    obtain ⟨word, hword, hlow⟩ := ih ht hj' (by dsimp only; omega)
    refine ⟨raise j ++ word, ?_, .step hj (by omega) hlow⟩
    rw [hword, List.append_assoc]

theorem finish_spec {u : QubitOp ℕ} (hu : u.isUnitary = true) (hlt : u.exponent < greedyFloor) :
    ∃ word v, finish u = .ok (word, v) ∧ Lowers u word v ∧ v.exponent = 0 := by
  have hdepth : u.exponent - 1 ≤ searchDepth := by
    rw [greedyFloor] at hlt
    exact Nat.le_of_lt_succ (by rw [searchDepth]; omega)
  obtain ⟨r, hwalk, hr⟩ := exists_walk hu []
  obtain ⟨⟨word, v⟩, hfind, hzero, k, hk, hpath⟩ := Levels.find_of_walk stepMoves_alike hwalk hr hdepth
  obtain ⟨word', hword, hlow⟩ := lowers_of_walk hpath hzero hu hk
  rw [List.nil_append] at hword
  subst hword
  refine ⟨word, v, ?_, hlow, of_decide_eq_true hzero⟩
  rw [finish_eq, hfind]

/-! ### Exponent zero -/

/-- The first column of a unitary operator of exponent zero has a power of `ω` and a zero. -/
theorem exists_column {u : QubitOp ℕ} (hu : u.isUnitary = true) (h0 : u.exponent = 0) :
    ∃ i < 8, u.z.value = eighthRoot ^ i ∧ u.w.value = 0 ∨ u.z.value = 0 ∧ u.w.value = eighthRoot ^ i := by
  obtain ⟨x, hx⟩ := (exponent_le_iff u 0).1 h0.le
  obtain ⟨y, hy⟩ := (cleared_w_iff hu 0).2 ((exponent_le_iff u 0).1 h0.le)
  rw [pow_zero, mul_one] at hx hy
  have hsum : x.absSq + y.absSq = 1 := by
    apply NumberRing.value_injective
    rw [NumberRing.value_add, NumberRing.value_one, QuadInt.value_eq, QuadInt.value_eq, complexHom_absSq,
      complexHom_absSq, ← hx, ← hy]
    exact (isUnitary_iff u).1 hu
  have ha : x.absSq.a + y.absSq.a = 1 := congrArg QuadInt.a hsum
  have hx0 := absSq_a_nonneg x
  have hy0 := absSq_a_nonneg y
  rcases (show x.absSq.a = 1 ∧ y.absSq.a = 0 ∨ x.absSq.a = 0 ∧ y.absSq.a = 1 by omega) with ⟨h1, h0⟩ | ⟨h0, h1⟩
  · obtain ⟨i, hi, rfl⟩ := exists_omega_pow h1
    refine ⟨i, hi, .inl ⟨?_, ?_⟩⟩
    · rw [hx, map_pow, complexHom_omega]
    · rw [hy, eq_zero_of_absSq_a h0, map_zero]
  · obtain ⟨i, hi, rfl⟩ := exists_omega_pow h1
    refine ⟨i, hi, .inr ⟨?_, ?_⟩⟩
    · rw [hx, eq_zero_of_absSq_a h0, map_zero]
    · rw [hy, map_pow, complexHom_omega]

/-- The diagonal operator with entries `ω ^ i` and `ω ^ (i + 2 m)`. -/
theorem ofWord_diagonal (i m : ℕ) :
    (ofWord (List.replicate i .W ++ List.replicate m .S) : QubitOp ℕ).z.value = eighthRoot ^ i ∧
      (ofWord (List.replicate i .W ++ List.replicate m .S) : QubitOp ℕ).w.value = 0 ∧
      (ofWord (List.replicate i .W ++ List.replicate m .S) : QubitOp ℕ).phase = phaseOf (2 * i + 2 * m) := by
  obtain ⟨hz, hw, hn⟩ := act_replicate_W i (act (List.replicate m .S) identity)
  obtain ⟨hz', hw', hn'⟩ := equiv_iff.1 (act_replicate_S m identity)
  rw [ofWord_eq_act, act_append, hz, hw, hn, hz', hw', hn']
  refine ⟨by simp, by simp, ?_⟩
  simp only [timesT_phase, phaseOf_phaseOf_add, identity_phase]
  exact phaseOf_congr (by simp only [Fin.val_zero]; omega)

theorem monomial_replicate (i m : ℕ) :
    ∀ g ∈ List.replicate i Gate.W ++ List.replicate m Gate.S, g ∈ monomialGates := by
  intro g hg
  rcases List.mem_append.1 hg with hg | hg
  · rw [List.eq_of_mem_replicate hg]
    decide
  · rw [List.eq_of_mem_replicate hg]
    decide

/-- A unitary operator of exponent zero and even phase is the product of a short word without `H` and `T`. -/
theorem exists_tail_word {u : QubitOp ℕ} (hu : u.isUnitary = true) (h0 : u.exponent = 0)
    (heven : u.phase.val % 2 = 0) :
    ∃ word : GateWord, word.length ≤ tailDepth ∧ (∀ g ∈ word, g ∈ monomialGates) ∧ ofWord word ≈ u := by
  obtain ⟨i, hi, ⟨hz, hw⟩ | ⟨hz, hw⟩⟩ := exists_column hu h0
  · -- The power of `S` gives the phase what the power of `W` leaves open.
    obtain ⟨m, hm⟩ : ∃ m, m = (u.phase.val + 16 - 2 * i) / 2 % 4 := ⟨_, rfl⟩
    obtain ⟨hz', hw', hn'⟩ := ofWord_diagonal i m
    refine ⟨_, ?_, monomial_replicate i m, equiv_iff.2 ⟨hz'.trans hz.symm, hw'.trans hw.symm, ?_⟩⟩
    · simp only [List.length_append, List.length_replicate, tailDepth]
      omega
    · rw [hn', ← phaseOf_val u.phase]
      exact phaseOf_congr (by omega)
  · let m := ((u.phase.val + 20 - 2 * i) / 2) % 4
    obtain ⟨hz', hw', hn'⟩ := ofWord_diagonal i m
    refine ⟨.X :: (List.replicate i .W ++ List.replicate m .S), ?_, ?_, equiv_iff.2 ⟨?_, ?_, ?_⟩⟩
    · simp only [List.length_cons, List.length_append, List.length_replicate, tailDepth]
      omega
    · exact List.forall_mem_cons.2 ⟨by decide, monomial_replicate i m⟩
    · rw [ofWord_eq_act, act_cons, apply_X_z]
      exact hw'.trans hz.symm
    · rw [ofWord_eq_act, act_cons, apply_X_w]
      exact hz'.trans hw.symm
    · rw [ofWord_eq_act, act_cons, apply_X_phase, ← ofWord_eq_act, hn', phaseOf_phaseOf_add, ← phaseOf_val u.phase]
      exact phaseOf_congr (by omega)

/-- The three moves of the search for a word without `H` and `T`. -/
def tailMoves (s : GateWord × QubitOp E) : List (GateWord × QubitOp E) :=
  monomialGates.map fun g => (g :: s.1, s.2.apply g)

theorem evenTail_eq (u : QubitOp E) : evenTail u =
    match Levels.find (fun s => s.2.same u) tailMoves alike tailDepth [([], identity)] [([], identity)] with
    | some (word, _) => .ok word
    | none => .error (.broken (.notClifford u.text)) := rfl

theorem mem_tailMoves {s t : GateWord × QubitOp ℕ} :
    t ∈ tailMoves s ↔ ∃ g ∈ monomialGates, t = (g :: s.1, s.2.apply g) := by
  simp only [tailMoves, List.mem_map]
  exact ⟨fun ⟨g, hg, h⟩ => ⟨g, hg, h.symm⟩, fun ⟨g, hg, h⟩ => ⟨g, hg, h.symm⟩⟩

theorem tailMoves_alike (u : QubitOp ℕ) : Levels.Alike (fun s => s.2.same u) tailMoves alike := by
  refine ⟨fun s => Setoid.refl s.2, fun s t h => ?_, fun s t h s' hs' => ?_⟩
  · refine Bool.eq_iff_iff.2 ⟨fun hs => ?_, fun ht => ?_⟩
    · exact Setoid.trans (Setoid.symm (alike_iff.1 h)) hs
    · exact Setoid.trans (alike_iff.1 h) ht
  · obtain ⟨g, hg, rfl⟩ := mem_tailMoves.1 hs'
    exact ⟨_, mem_tailMoves.2 ⟨g, hg, rfl⟩, alike_iff.2 (apply_congr (alike_iff.1 h) g)⟩

theorem walk_of_word {word : GateWord} (hw : ∀ g ∈ word, g ∈ monomialGates) :
    Levels.Walk tailMoves word.length ([], (identity : QubitOp ℕ)) (word, ofWord word) := by
  induction word with
  | nil => exact .refl _
  | cons g word ih =>
    have hrest := ih fun h hh => hw h (List.mem_cons_of_mem g hh)
    exact hrest.snoc (mem_tailMoves.2 ⟨g, hw g List.mem_cons_self, rfl⟩)

theorem evenTail_spec {u : QubitOp ℕ} (hu : u.isUnitary = true) (h0 : u.exponent = 0)
    (heven : u.phase.val % 2 = 0) :
    ∃ word, evenTail u = .ok word ∧ (∀ g ∈ word, g ∈ monomialGates) ∧ ofWord word ≈ u := by
  obtain ⟨short, hlen, hmono, heq⟩ := exists_tail_word hu h0 heven
  obtain ⟨⟨word, v⟩, hfind, hgoal, k, -, hpath⟩ :=
    Levels.find_of_walk (tailMoves_alike u) (walk_of_word hmono) heq hlen
  have hstate : v = ofWord word ∧ ∀ g ∈ word, g ∈ monomialGates := by
    refine hpath.preserves (P := fun s => s.2 = ofWord s.1 ∧ ∀ g ∈ s.1, g ∈ monomialGates) ?_ ⟨rfl, by simp⟩
    rintro s ⟨hs, hword⟩ t ht
    obtain ⟨g, hg, rfl⟩ := mem_tailMoves.1 ht
    exact ⟨by rw [hs]; rfl, List.forall_mem_cons.2 ⟨hg, hword⟩⟩
  obtain ⟨rfl, hword⟩ := hstate
  refine ⟨word, ?_, hword, hgoal⟩
  rw [evenTail_eq, hfind]

theorem count_monomial {word : GateWord} (hw : ∀ g ∈ word, g ∈ monomialGates) {g : Gate} (hg : g ∉ monomialGates) :
    word.count g = 0 :=
  List.count_eq_zero.2 fun hmem => hg (hw g hmem)

/-- The rest of the word has no gate `H`, and a gate `T` only for an odd phase. -/
theorem tail_spec {u : QubitOp ℕ} (hu : u.isUnitary = true) (h0 : u.exponent = 0) :
    ∃ word, tail u = .ok word ∧ ofWord word ≈ u ∧ word.tCount = u.phase.val % 2 ∧ word.count .H = 0 := by
  have hH : Gate.H ∉ monomialGates := by decide
  have hT : Gate.T ∉ monomialGates := by decide
  by_cases hodd : u.phase.val % 2 = 1
  · have heven : (u.timesT (-1)).phase.val % 2 = 0 := by
      simp only [timesT_phase, phaseOf]
      omega
    obtain ⟨word, htail, hmono, heq⟩ := evenTail_spec (isUnitary_timesT hu (-1))
      ((exponent_timesT u (-1)).trans h0) heven
    refine ⟨.T :: word, ?_, ?_, ?_, ?_⟩
    · rw [tail, if_pos hodd, htail]
      rfl
    · have hback := timesT_timesT u (-1) 1
      exact Setoid.trans (timesT_congr heq 1) (Setoid.trans hback (timesT_zero u))
    · rw [GateWord.tCount, List.count_cons_self, count_monomial hmono hT, hodd]
    · rw [List.count_cons_of_ne (by decide), count_monomial hmono hH]
  · obtain ⟨word, htail, hmono, heq⟩ := evenTail_spec hu h0 (by omega)
    refine ⟨word, ?_, heq, ?_, count_monomial hmono hH⟩
    · rw [tail, if_neg hodd, htail]
    · rw [GateWord.tCount, count_monomial hmono hT]
      omega

/-! ### The whole word -/

/-- The word of a unitary operator is a sequence of steps that lower the exponent to zero, and a tail. -/
theorem decompose_spec {u : QubitOp ℕ} (hu : u.isUnitary = true) :
    ∃ front v back, decompose u = .ok (front ++ back) ∧ Lowers u front v ∧ v.exponent = 0 ∧
      ofWord back ≈ v ∧ (back.tCount = v.phase.val % 2 ∧ back.count .H = 0) ∧ ofWord (front ++ back) ≈ u := by
  obtain ⟨front, rest, hdescend, hfront, hfloor⟩ := descend_spec hu
  obtain ⟨middle, v, hfinish, hmiddle, hv⟩ := finish_spec (hfront.isUnitary hu) hfloor
  have hlow := hfront.append hmiddle
  obtain ⟨back, htail, hback, hcount⟩ := tail_spec (hlow.isUnitary hu) hv
  have hword : ofWord (front ++ middle ++ back) ≈ u := by
    rw [ofWord_append]
    exact Setoid.trans (act_congr hback _) hlow.act_equiv
  refine ⟨front ++ middle, v, back, ?_, hlow, hv, hback, hcount, hword⟩
  have hsame : (ofWord (front ++ middle ++ back)).same u = true := hword
  simp only [decompose, hu, hdescend, hfinish, htail, hsame, bind, Except.bind, Bool.not_true,
    Bool.false_eq_true, if_false, if_true]

end CliffordT.Synthesis

import CliffordT.Proofs.Gate.Length
import CliffordT.Proofs.Gate.Unbounded

/-!
Exact synthesis with stored exponents.

The exponents of the operators that a synthesis looks at are at most those of the operator it begins with, and a few more for the
steps of the search below the floor. As long as twice that can be stored, the synthesis takes the same way as one
with exponents of any size, and all that is known of the word holds for it.
-/

namespace CliffordT

open Exponent

namespace QubitOp

/-- The exponents of a reduced unitary operator are half the exponent of `|z|²`. -/
theorem depth_make_of_isUnitary {z w : CycloFrac ℕ} {n : ℤ} (hu : (make z w n).isUnitary = true) :
    (make z w n).depth = ((make z w n).exponent + 1) / 2 := by
  have hz : (make z w n).z.reduce = (make z w n).z := RootFrac.reduce_reduce z
  have hw : (make z w n).w.reduce = (make z w n).w := RootFrac.reduce_reduce w
  have hsame : (make z w n).w.reduce.exp = (make z w n).z.reduce.exp := by
    refine eq_of_forall_ge_iff fun m => ?_
    rw [← load_nat (make z w n).w.reduce.exp, RootFrac.reduce_exp_le_iff, ← load_nat (make z w n).z.reduce.exp,
      RootFrac.reduce_exp_le_iff]
    exact (cleared_two_mul_iff _ m).symm.trans ((cleared_w_iff hu _).trans (cleared_two_mul_iff _ m))
  have hexp := reduce_exp_eq (make z w n)
  rw [hw, hz] at hsame
  rw [hz] at hexp
  rw [depth, load_nat, load_nat, hsame, max_self, hexp]

theorem depth_ofWord (word : GateWord) : (ofWord word : QubitOp ℕ).depth = ((ofWord word : QubitOp ℕ).exponent + 1) / 2 := by
  have hu : (ofWord word : QubitOp ℕ).isUnitary = true := isUnitary_ofWord word
  cases word with
  | nil => exact depth_make_of_isUnitary hu
  | cons g word => cases g <;> exact depth_make_of_isUnitary hu

theorem exponent_le_two_mul_depth (u : QubitOp ℕ) : u.exponent ≤ 2 * u.depth := by
  rw [exponent_le_two_mul_iff]
  exact (RootFrac.load_reduce_le u.z).trans (le_max_left _ _)

/-- A step that lowers the exponent does not raise the stored exponents. -/
theorem depth_lower_le_of_lt {u : QubitOp ℕ} (hu : u.isUnitary = true) {j : ℕ}
    (hlt : (Synthesis.lower u j).exponent < u.exponent) : (Synthesis.lower u j).depth ≤ u.depth := by
  have hdepth : (Synthesis.lower u j).depth = ((Synthesis.lower u j).exponent + 1) / 2 :=
    depth_make_of_isUnitary (isUnitary_lower hu j)
  have := exponent_le_two_mul_depth u
  omega

theorem depth_unbounded {E : Type} [Exponent E] (u : QubitOp E) : u.unbounded.depth = u.depth := rfl

end QubitOp

namespace Synthesis

open QubitOp

variable {E : Type} [Exponent E]

/-- The descent takes the same steps, and the exponents stay below those it begins with. -/
theorem descend_unbounded {u : QubitOp E} (hu : u.unbounded.isUnitary = true) (hE : Stores E (2 * (u.depth + 1)))
    {word : GateWord} {v : QubitOp ℕ} (h : descend u.unbounded = .ok (word, v)) :
    ∃ rest : QubitOp E, descend u = .ok (word, rest) ∧ rest.unbounded = v ∧ rest.depth ≤ u.depth := by
  induction hs : u.exponent using Nat.strong_induction_on generalizing u word with
  | _ s ih =>
    subst hs
    have hexp : u.unbounded.exponent = u.exponent := exponent_unbounded (hE.of_le (by omega))
    have hlower (j : ℕ) : (lower u j).unbounded = lower u.unbounded j := unbounded_lower (hE.of_le (by omega)) j
    have hlowerExp (j : ℕ) : (lower u.unbounded j).exponent = (lower u j).exponent := by
      have := depth_lower_le u j
      rw [← hlower, exponent_unbounded (hE.of_le (by omega))]
    rw [descend] at h ⊢
    by_cases hfloor : u.exponent < greedyFloor
    · rw [if_pos (hexp.trans_lt hfloor)] at h
      cases h
      rw [if_pos hfloor]
      exact ⟨u, rfl, rfl, le_rfl⟩
    · rw [if_neg (hexp.symm ▸ hfloor)] at h
      rw [if_neg hfloor]
      split at h
      · cases h
      next j hfind =>
        have hlt : (lower u.unbounded j).exponent < u.unbounded.exponent := by simpa using List.find?_some hfind
        have hdepth : (lower u j).depth ≤ u.depth := by
          have := depth_lower_le_of_lt hu hlt
          rwa [← hlower] at this
        simp only [hlowerExp, hexp] at hfind hlt
        split at h
        · cases h
        next front rest hrest =>
          cases h
          rw [← hlower] at hrest
          obtain ⟨rest', hok, heq, hle⟩ := ih _ hlt (hlower j ▸ isUnitary_lower hu j) (hE.of_le (by omega)) hrest rfl
          split
          next hnone => rw [hnone] at hfind; cases hfind
          next i hi =>
            obtain rfl : i = j := Option.some.inj (hi.symm.trans hfind)
            rw [hok]
            exact ⟨rest', rfl, heq, hle.trans hdepth⟩

/-- A state of a search, with exponents of any size. -/
def unboundedState (s : GateWord × QubitOp E) : GateWord × QubitOp ℕ := (s.1, s.2.unbounded)

theorem corresponds_stepMoves {d : ℕ} (hE : Stores E (2 * d)) :
    Levels.Corresponds (atZero (E := E)) stepMoves alike atZero stepMoves alike unboundedState
      (fun n s => s.2.depth + n ≤ d) := by
  have hlower {n : ℕ} {s : GateWord × QubitOp E} (hs : s.2.depth + (n + 1) ≤ d) (j : ℕ) :
      (lower s.2 j).unbounded = lower s.2.unbounded j := unbounded_lower (hE.of_le (by omega)) j
  refine ⟨fun s t => same_unbounded s.2 t.2, fun n s hs => ?_, fun n s hs => ?_, fun n s hs t ht => ?_⟩
  · rw [atZero, atZero, unboundedState, exponent_unbounded (hE.of_le (by omega))]
  · simp only [stepMoves, unboundedState, List.map_map, Function.comp_def, hlower hs]
  · obtain ⟨j, -, rfl⟩ := List.mem_map.1 ht
    have := depth_lower_le s.2 j
    dsimp only
    omega

theorem finish_unbounded {u : QubitOp E} (hE : Stores E (2 * (u.depth + searchDepth))) {word : GateWord} {v : QubitOp ℕ}
    (h : finish u.unbounded = .ok (word, v)) : ∃ rest : QubitOp E, finish u = .ok (word, rest) ∧ rest.unbounded = v := by
  have hfind := Levels.find_map (corresponds_stepMoves hE) searchDepth [([], u)] [([], u)]
    fun s hs => by rw [List.mem_singleton.1 hs]
  rw [finish_eq] at h ⊢
  rw [List.map_singleton, unboundedState] at hfind
  rw [hfind] at h
  cases hfound : Levels.find atZero stepMoves alike searchDepth [([], u)] [([], u)] with
  | none =>
    rw [hfound] at h
    cases h
  | some found =>
    rw [hfound] at h
    obtain ⟨rfl, rfl⟩ := Prod.mk.inj (Except.ok.inj h)
    exact ⟨found.2, rfl, rfl⟩

theorem corresponds_tailMoves (u : QubitOp E) :
    Levels.Corresponds (fun s => s.2.same u) tailMoves alike (fun s => s.2.same u.unbounded) tailMoves alike unboundedState
      (fun _ _ => True) := by
  refine ⟨fun s t => same_unbounded s.2 t.2, fun _ s _ => same_unbounded s.2 u, fun _ s _ => ?_, fun _ _ _ _ _ => trivial⟩
  rw [tailMoves, tailMoves, List.map_map]
  refine List.map_congr_left fun g hg => ?_
  have hne : g ≠ .H := by
    rintro rfl
    revert hg
    decide
  exact congrArg (Prod.mk (g :: s.1)) (unbounded_apply_of_ne hne s.2).symm

theorem evenTail_unbounded (u : QubitOp E) : evenTail u.unbounded = evenTail u := by
  have hfind := Levels.find_map (corresponds_tailMoves u) tailDepth [([], identity)] [([], identity)]
    fun _ _ => trivial
  rw [List.map_singleton, unboundedState, unbounded_identity] at hfind
  rw [evenTail_eq, evenTail_eq, hfind]
  cases Levels.find (fun s => s.2.same u) tailMoves alike tailDepth [([], identity)] [([], identity)] <;> rfl

theorem tail_unbounded (u : QubitOp E) : tail u.unbounded = tail u := by
  rw [tail, tail, ← unbounded_timesT, evenTail_unbounded, evenTail_unbounded]
  rfl

/-- A word with as few gates `H` as steps can write has the same operator, whether exponents are stored or not. -/
theorem same_ofWord_unbounded {u : QubitOp E} (hE : Stores E (2 * u.depth)) {word : GateWord}
    (h : word.count .H = u.unbounded.exponent - 1) : (ofWord word).same u.unbounded = (ofWord word).same u := by
  have hexp := exponent_le_two_mul_depth u.unbounded
  rw [depth_unbounded] at hexp
  rw [← (unbounded_ofWord word (hE.of_le (by omega))).1, same_unbounded]

/-- A synthesis takes the same way, whether exponents are stored or not, if twice the exponents that it comes to can be
stored. -/
theorem decompose_unbounded {u : QubitOp E} (hE : Stores E (2 * (u.depth + searchDepth))) :
    decompose u.unbounded = decompose u := by
  have hunitary : u.unbounded.isUnitary = u.isUnitary := isUnitary_unbounded (hE.of_le (by omega))
  cases hu : u.unbounded.isUnitary with
  | false =>
    rw [hu] at hunitary
    simp only [decompose, hu, ← hunitary, Bool.not_false, if_true, text_unbounded]
  | true =>
    obtain ⟨front, v, hdescend, hfront, hfloor⟩ := descend_spec hu
    obtain ⟨middle, clifford, hfinish, hmiddle, hzero⟩ := finish_spec (hfront.isUnitary hu) hfloor
    have hlow := hfront.append hmiddle
    obtain ⟨back, htail, -, -, hback⟩ := tail_spec (hlow.isUnitary hu) hzero
    obtain ⟨rest, hdescend', rfl, hdepth⟩ := descend_unbounded hu (hE.of_le (by rw [searchDepth]; omega)) hdescend
    obtain ⟨last, hfinish', rfl⟩ := finish_unbounded (hE.of_le (by omega)) hfinish
    have hsame := same_ofWord_unbounded (hE.of_le (by omega)) (hlow.count_H_append hu hzero hback)
    rw [hu] at hunitary
    simp only [decompose, hu, ← hunitary, hdescend, hdescend', hfinish, hfinish', htail, ← tail_unbounded, hsame, bind,
      Except.bind, Bool.not_true, Bool.false_eq_true, if_false, text_unbounded]

/-- The word of a unitary operator has the same operator, whether exponents are stored or not, and no larger exponents. -/
theorem unbounded_ofWord_of_decompose {u : QubitOp E} (hE : Stores E (2 * (u.depth + searchDepth)))
    (hu : u.unbounded.isUnitary = true) {word : GateWord} (h : decompose u = .ok word) :
    (ofWord word : QubitOp E).unbounded = ofWord word ∧ (ofWord word : QubitOp E).depth ≤ u.depth := by
  rw [← decompose_unbounded hE] at h
  have hexp := exponent_le_two_mul_depth u.unbounded
  rw [depth_unbounded] at hexp
  have hcount := count_H_of_decompose hu h
  have hword := (unbounded_ofWord (E := E) word (hE.of_le (by omega))).1
  refine ⟨hword, ?_⟩
  have hdepth : (ofWord word : QubitOp ℕ).depth = ((ofWord word : QubitOp ℕ).exponent + 1) / 2 := depth_ofWord word
  obtain ⟨front, v, back, hok, -, -, -, -, hequiv⟩ := decompose_spec hu
  obtain rfl : front ++ back = word := Except.ok.inj (hok.symm.trans h)
  rw [exponent_congr hequiv, ← hword, depth_unbounded] at hdepth
  omega

/-- The number of gates `T` in the word of a completed column. -/
theorem tCount_ofColumn_stored {z w : CycloFrac E} (hE : Stores E (2 * (max (load z.exp) (load w.exp) + searchDepth)))
    (h : (CycloFrac.absSq z + CycloFrac.absSq w).same 1 = true) {k : ℕ} (hk : LeastExponent z k) :
    ∃ word, decompose (ofColumn z w) = .ok word ∧ word.tCount = 2 * max k 1 - 2 ∧
      ofWord word ≈ (ofColumn z w).unbounded := by
  have hdepth := depth_ofColumn_le z w
  rw [← same_one_unbounded (hE.of_le (by omega))] at h
  obtain ⟨word, hok, hcount, hword⟩ := tCount_ofColumn h
  rw [← unbounded_ofColumn, decompose_unbounded (hE.of_le (by omega))] at hok
  rw [← (leastExponent_iff z k).1 hk, ← RootFrac.unbounded_exp, RootFrac.unbounded_reduce]
  exact ⟨word, hok, hcount, (unbounded_ofColumn z w).symm ▸ hword⟩

/-! ### What is known of the word -/

/-- Exact synthesis returns a word for every unitary operator, and the product of the word is the operator. An
operator that is not unitary is refused. -/
theorem decompose_exact (u : QubitOp E) :
    (Stores E (2 * (u.depth + searchDepth)) → u.isUnitary = true →
      ∃ word, decompose u = .ok word ∧ (ofWord word).same u = true) ∧
      (u.isUnitary = false → decompose u = .error (.broken (.notUnitary u.text))) := by
  constructor
  · intro hE hu
    rw [← isUnitary_unbounded (hE.of_le (by omega))] at hu
    obtain ⟨front, v, back, hok, -, -, -, -, hword⟩ := decompose_spec hu
    have hcount := count_H_of_decompose hu hok
    rw [decompose_unbounded hE] at hok
    exact ⟨front ++ back, hok, (same_ofWord_unbounded (hE.of_le (by omega)) hcount).symm.trans hword⟩
  · intro hu
    simp [decompose, hu]

/-- A product of three gates is decomposed; a column of length `√2` is refused. -/
theorem decompose_exact_three_gates :
    (∃ word, decompose (ofWord [.H, .T, .H] : QubitOp) = .ok word ∧ (ofWord word).same (ofWord [.H, .T, .H] : QubitOp) = true) ∧
      decompose (make (1 : CycloFrac) 1 0) = .error (.broken (.notUnitary (make (1 : CycloFrac) 1 0).text)) :=
  ⟨(decompose_exact (ofWord [.H, .T, .H])).1 (.of_lt (by decide +kernel)) (by decide +kernel),
    (decompose_exact (make 1 1 0)).2 (by decide +kernel)⟩

/-- The word that exact synthesis returns for a product of gates has the least number of gates `T` among all words
with that product. -/
theorem decompose_tCount_least (word : GateWord) (hE : Stores E (2 * (word.count .H + searchDepth))) :
    ∃ best, decompose (ofWord word : QubitOp E) = .ok best ∧ best.tCount ≤ word.tCount ∧
      IsLeast {n | ∃ other, (ofWord other).same (ofWord word : QubitOp ℕ) = true ∧ GateWord.tCount other = n} best.tCount := by
  obtain ⟨hword, hdepth⟩ := unbounded_ofWord word (hE.of_le (by omega))
  obtain ⟨best, hok, hcost, hbest⟩ := cost_of_decompose (isUnitary_ofWord word)
  have hleast : ∀ other, ofWord other ≈ (ofWord word : QubitOp ℕ) → best.tCount ≤ GateWord.tCount other := by
    intro other hother
    obtain ⟨t, ht, hle⟩ := Cost.exists_le_tCount other
    rwa [hcost.unique (ht.congr hother) (isUnitary_ofWord word)]
  rw [← hword, decompose_unbounded (hE.of_le (by omega))] at hok
  refine ⟨best, hok, hleast word (Setoid.refl _), ⟨best, hbest, rfl⟩, ?_⟩
  rintro n ⟨other, hother, rfl⟩
  exact hleast other hother

/-- Two gates `T` that cancel each other up to a gate `S` are not written. -/
theorem decompose_tCount_least_cancelled :
    ∃ best, decompose (ofWord [.H, .T, .T, .H] : QubitOp) = .ok best ∧ best.tCount = 0 := by
  have hnone : (ofWord [.H, .S, .H]).same (ofWord [.H, .T, .T, .H] : QubitOp ℕ) = true := by decide +kernel
  obtain ⟨best, hok, -, hleast⟩ := decompose_tCount_least (E := UInt32) [.H, .T, .T, .H] (.of_lt (by decide))
  exact ⟨best, hok, Nat.le_zero.1 (hleast.2 ⟨_, hnone, rfl⟩)⟩

/-- The exponent of a unitary operator is never one. If it is positive, exactly one of the four steps lowers it, and that step
lowers it by one as long as it is at least three. So the word of the operator has as many gates `H` as the exponent is above
one, and nearly as many gates `T`. -/
theorem exponent_step_and_gate_counts (u : QubitOp E) (hE : Stores E (2 * (u.depth + searchDepth)))
    (hunitary : u.isUnitary = true) :
    u.exponent ≠ 1 ∧
    (0 < u.exponent → ∃! j, j < 4 ∧ (lower u j).exponent < u.exponent) ∧
    (3 ≤ u.exponent → ∀ j, (lower u j).exponent < u.exponent → (lower u j).exponent = u.exponent - 1) ∧
    ∃ word, decompose u = .ok word ∧ word.count .H = u.exponent - 1 ∧
      (2 ≤ u.exponent → u.exponent - 2 ≤ word.tCount ∧ word.tCount ≤ u.exponent) := by
  have hexp : u.unbounded.exponent = u.exponent := exponent_unbounded (hE.of_le (by omega))
  have hlower (j : ℕ) : (lower u.unbounded j).exponent = (lower u j).exponent := by
    have := depth_lower_le u j
    rw [← unbounded_lower (hE.of_le (by rw [searchDepth]; omega)), exponent_unbounded (hE.of_le (by rw [searchDepth]; omega))]
  rw [← isUnitary_unbounded (hE.of_le (by omega))] at hunitary
  obtain ⟨word, hok, hcost, -⟩ := cost_of_decompose hunitary
  simp only [← hexp, ← hlower, ← decompose_unbounded hE]
  refine ⟨exponent_ne_one hunitary, existsUnique_lowering hunitary, ?_, word, hok, count_H_of_decompose hunitary hok, ?_⟩
  · intro hs j hlt
    exact exponent_lower_of_three_le hunitary hlt hs
  · exact hcost.near_exponent hunitary

/-- The product `HTHTH` has exponent four, and `H` is the one step that brings it to three. Its word has three gates `H`. -/
theorem exponent_step_and_gate_counts_four :
    (ofWord [.H, .T, .H, .T, .H] : QubitOp).exponent = 4 ∧
      (∃! j, j < 4 ∧ (lower (ofWord [.H, .T, .H, .T, .H] : QubitOp) j).exponent < 4) ∧
      (lower (ofWord [.H, .T, .H, .T, .H] : QubitOp) 0).exponent = 3 ∧
      ∃ word, decompose (ofWord [.H, .T, .H, .T, .H] : QubitOp) = .ok word ∧ word.count .H = 3 ∧
        2 ≤ word.tCount ∧ word.tCount ≤ 4 := by
  have hexp : (ofWord [.H, .T, .H, .T, .H] : QubitOp).exponent = 4 := by decide +kernel
  have hlow : (lower (ofWord [.H, .T, .H, .T, .H] : QubitOp) 0).exponent < 4 := by decide +kernel
  obtain ⟨-, hunique, hfall, word, hok, hH, hT⟩ :=
    exponent_step_and_gate_counts (ofWord [.H, .T, .H, .T, .H] : QubitOp) (.of_lt (by decide +kernel)) (by decide +kernel)
  rw [hexp] at hunique hfall hH hT
  exact ⟨hexp, hunique (by decide), hfall (by decide) 0 hlow, word, hok, hH, hT (by decide)⟩

end Synthesis

end CliffordT

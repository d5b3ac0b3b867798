import CliffordT.Proofs.Gate.Synthesis

/-!
Exact synthesis uses as few gates `T` as possible.

The cost of an operator is the number of gates `T` in its steps to exponent zero, plus one if the phase left there is
odd. There is only one way to exponent zero, so an operator has one cost. Multiplying with `H`, `X`, `S` or `W` keeps
the cost and multiplying with `T` raises it by at most one, hence no word for an operator has fewer gates `T`.
-/

namespace CliffordT

open Synthesis

theorem GateWord.tCount_append (word word' : GateWord) : tCount (word ++ word') = word.tCount + word'.tCount :=
  List.count_append

/-- The number of gates `T` that exact synthesis spends on an operator. -/
inductive Cost : QubitOp ℕ → ℕ → Prop
  | zero {u : QubitOp ℕ} (h0 : u.exponent = 0) : Cost u (u.phase.val % 2)
  | step {u : QubitOp ℕ} {j t : ℕ} (hj : j < 4) (hlt : (lower u j).exponent < u.exponent)
      (rest : Cost (lower u j) t) : Cost u (j % 2 + t)

namespace Cost

open QubitOp

variable {u v : QubitOp ℕ} {s t : ℕ}

theorem congr (h : Cost u t) (huv : u ≈ v) : Cost v t := by
  induction h generalizing v with
  | @zero u h0 =>
    have h0' : v.exponent = 0 := (exponent_congr huv).symm.trans h0
    rw [(equiv_iff.1 huv).2.2]
    exact .zero h0'
  | @step u j t hj hlt _ ih =>
    have hlow := lower_congr huv j
    refine .step hj ?_ (ih hlow)
    rwa [← exponent_congr hlow, ← exponent_congr huv]

theorem eq_of_exponent_zero (h : Cost u t) (h0 : u.exponent = 0) : t = u.phase.val % 2 := by
  cases h with
  | zero => rfl
  | step _ hlt _ => exact absurd hlt (by omega)

/-- The cost of an operator is that of its one lowering step and of what is left. -/
theorem exists_rest (h : Cost u t) (hu : u.isUnitary = true) {j : ℕ} (hj : j < 4)
    (hlt : (lower u j).exponent < u.exponent) : ∃ s, Cost (lower u j) s ∧ t = j % 2 + s := by
  cases h with
  | zero h0 => exact absurd hlt (by omega)
  | @step _ i s hi hlt' rest =>
    obtain rfl := lowering_unique hu hi hj hlt' hlt
    exact ⟨s, rest, rfl⟩

theorem unique (hs : Cost u s) (ht : Cost u t) (hu : u.isUnitary = true) : s = t := by
  induction hs generalizing t with
  | zero h0 => exact (ht.eq_of_exponent_zero h0).symm
  | step hj hlt _ ih =>
    obtain ⟨t', ht', rfl⟩ := ht.exists_rest hu hj hlt
    rw [ih ht' (isUnitary_lower hu _)]

/-! ### Words without `H` and `T` -/

/-- A step after a gate other than `H` and `T` differs from a step before it by a word of such gates. -/
theorem exists_lower_apply (u : QubitOp ℕ) {g : Gate} (hg : g ∈ monomialGates) {j : ℕ} (hj : j < 4) :
    ∃ i < 4, i % 2 = j % 2 ∧ ∃ word : GateWord, (∀ h ∈ word, h ∈ monomialGates) ∧
      lower (apply g u) i ≈ act word (lower u j) := by
  simp only [monomialGates, List.mem_cons, List.not_mem_nil, or_false] at hg
  rcases hg with rfl | rfl | rfl
  · obtain rfl | hpos := Nat.eq_zero_or_pos j
    · exact ⟨0, hj, rfl, [.S, .S], by decide, lower_zero_apply_X u⟩
    · refine ⟨4 - j, by omega, by omega, _, ?_, lower_apply_X u (by omega)⟩
      intro h hh
      rcases List.mem_append.1 hh with hh | hh
      · rw [List.eq_of_mem_replicate hh]
        decide
      · exact (by decide : ∀ h ∈ [Gate.S, Gate.S, Gate.X], h ∈ monomialGates) h hh
  · obtain hlow | hhigh := Nat.lt_or_ge j 2
    · exact ⟨j + 2, by omega, by omega, [], by simp, lower_timesT u 2 (by push_cast; omega)⟩
    · exact ⟨j - 2, by omega, by omega, [.X], by decide, lower_timesT_four u 2 (by omega)⟩
  · exact ⟨j, hj, rfl, [.W], by decide, lower_apply_W u j⟩

theorem exists_lower_act (u : QubitOp ℕ) {word : GateWord} (hword : ∀ g ∈ word, g ∈ monomialGates) {j : ℕ}
    (hj : j < 4) : ∃ i < 4, i % 2 = j % 2 ∧ ∃ word' : GateWord, (∀ h ∈ word', h ∈ monomialGates) ∧
      lower (act word u) i ≈ act word' (lower u j) := by
  induction word with
  | nil => exact ⟨j, hj, rfl, [], by simp, Setoid.refl _⟩
  | cons g word ih =>
    obtain ⟨hg, hrest⟩ := List.forall_mem_cons.1 hword
    obtain ⟨i, hi, hij, word₁, hword₁, h₁⟩ := ih hrest
    obtain ⟨k, hk, hki, word₂, hword₂, h₂⟩ := exists_lower_apply (act word u) hg hi
    refine ⟨k, hk, hki.trans hij, word₂ ++ word₁, ?_, ?_⟩
    · intro h hh
      rcases List.mem_append.1 hh with hh | hh
      · exact hword₂ h hh
      · exact hword₁ h hh
    · rw [act_append]
      exact Setoid.trans h₂ (act_congr h₁ word₂)

theorem phase_act_monomial (u : QubitOp ℕ) {word : GateWord} (hword : ∀ g ∈ word, g ∈ monomialGates) :
    (act word u).phase.val % 2 = u.phase.val % 2 := by
  induction word with
  | nil => rfl
  | cons g word ih =>
    obtain ⟨hg, hrest⟩ := List.forall_mem_cons.1 hword
    rw [← ih hrest]
    simp only [monomialGates, List.mem_cons, List.not_mem_nil, or_false] at hg
    rcases hg with rfl | rfl | rfl <;>
    · simp only [act_cons, apply_X_phase, apply_S, timesT_phase, apply_W_phase, phaseOf]
      omega

theorem act_monomial (h : Cost u t) (hu : u.isUnitary = true) {word : GateWord}
    (hword : ∀ g ∈ word, g ∈ monomialGates) : Cost (act word u) t := by
  induction h generalizing word with
  | @zero u h0 =>
    rw [← phase_act_monomial u hword]
    exact .zero ((exponent_act_monomial hu hword).trans h0)
  | @step u j t hj hlt _ ih =>
    obtain ⟨i, hi, hij, word', hword', hlow⟩ := exists_lower_act u hword hj
    have hrest := ih (isUnitary_lower hu j) hword'
    rw [← hij]
    refine .step hi ?_ (hrest.congr (Setoid.symm hlow))
    rwa [exponent_congr hlow, exponent_act_monomial (isUnitary_lower hu j) hword', exponent_act_monomial hu hword]

/-! ### Words with `H` and `T` -/

/-- An operator whose step leaves what a step of another one leaves, up to gates other than `H` and `T`. -/
theorem of_lower (h : Cost (lower u s) t) (hu : u.isUnitary = true)
    (hlt : (lower u s).exponent < u.exponent) (hexp : v.exponent = u.exponent) {i : ℕ} (hi : i < 4)
    {word : GateWord} (hword : ∀ g ∈ word, g ∈ monomialGates) (hlow : lower v i ≈ act word (lower u s)) :
    Cost v (i % 2 + t) := by
  have hrest := h.act_monomial (isUnitary_lower hu s) hword
  refine .step hi ?_ (hrest.congr (Setoid.symm hlow))
  rwa [exponent_congr hlow, exponent_act_monomial (isUnitary_lower hu s) hword, hexp]

theorem timesT_one (h : Cost u t) (hu : u.isUnitary = true) : ∃ s, Cost (u.timesT 1) s ∧ s ≤ t + 1 := by
  have hexp := exponent_timesT u 1
  cases h with
  | zero h0 =>
    refine ⟨_, .zero (hexp.trans h0), ?_⟩
    simp only [timesT_phase, phaseOf]
    omega
  | @step _ j t hj hlt rest =>
    obtain hlow | rfl : j < 3 ∨ j = 3 := by omega
    · have hword : ∀ g ∈ ([] : GateWord), g ∈ monomialGates := by simp
      have hstep : lower (u.timesT 1) (j + 1) ≈ act [] (lower u j) := lower_timesT u 1 (by push_cast; omega)
      exact ⟨_, of_lower rest hu hlt hexp (by omega) hword hstep, by omega⟩
    · have hword : ∀ g ∈ [Gate.X], g ∈ monomialGates := by decide
      have hstep : lower (u.timesT 1) 0 ≈ act [.X] (lower u 3) := lower_timesT_four u 1 (by norm_num)
      exact ⟨_, of_lower rest hu hlt hexp (by omega) hword hstep, by omega⟩

/-- Multiplying with `H` is a step down, a step up, or leaves a step in which it is absorbed. -/
theorem apply_H (h : Cost u t) (hu : u.isUnitary = true) : Cost (apply .H u) t := by
  have hzero := lower_zero u
  rcases lt_trichotomy (apply .H u).exponent u.exponent with hdown | hsame | hup
  · obtain ⟨s, hs, rfl⟩ := h.exists_rest hu (j := 0) (by omega) (by rwa [exponent_congr hzero])
    rw [Nat.zero_mod, Nat.zero_add]
    exact hs.congr hzero
  · obtain h0 | hpos := Nat.eq_zero_or_pos u.exponent
    · have hphase : (apply .H u).phase.val % 2 = u.phase.val % 2 := by
        simp only [apply_H_phase, phaseOf]
        omega
      rw [h.eq_of_exponent_zero h0, ← hphase]
      exact .zero (hsame.trans h0)
    · obtain ⟨j, hj, hlt⟩ := exists_lowering hu hpos
      have heven := (exponent_apply_H_le_iff hu hj hlt).1 hsame.le
      have hne : j ≠ 0 := by
        rintro rfl
        rw [exponent_congr hzero, hsame] at hlt
        exact lt_irrefl _ hlt
      obtain rfl : j = 2 := by omega
      obtain ⟨s, hs, rfl⟩ := h.exists_rest hu hj hlt
      have hword : ∀ g ∈ List.replicate 7 Gate.W ++ [.S, .X], g ∈ monomialGates := by decide
      exact of_lower hs hu hlt hsame hj hword (lower_two_apply_H u)
  · have hback := Setoid.trans (lower_zero (apply .H u)) (apply_H_H u)
    have hstep := Cost.step (u := apply .H u) (j := 0) (by omega) (by rwa [exponent_congr hback])
      (h.congr (Setoid.symm hback))
    rwa [Nat.zero_mod, Nat.zero_add] at hstep

theorem apply_gate (h : Cost u t) (hu : u.isUnitary = true) (g : Gate) :
    ∃ s, Cost (apply g u) s ∧ s ≤ t + GateWord.tCount [g] := by
  cases g with
  | H => exact ⟨t, h.apply_H hu, t.le_add_right _⟩
  | T => exact h.timesT_one hu
  | S =>
    have hword : ∀ g ∈ [Gate.S], g ∈ monomialGates := by decide
    exact ⟨t, h.act_monomial hu hword, t.le_add_right _⟩
  | X =>
    have hword : ∀ g ∈ [Gate.X], g ∈ monomialGates := by decide
    exact ⟨t, h.act_monomial hu hword, t.le_add_right _⟩
  | W =>
    have hword : ∀ g ∈ [Gate.W], g ∈ monomialGates := by decide
    exact ⟨t, h.act_monomial hu hword, t.le_add_right _⟩

/-- No word has fewer gates `T` than its product costs. -/
theorem exists_le_tCount (word : GateWord) : ∃ t, Cost (ofWord word) t ∧ t ≤ word.tCount := by
  induction word with
  | nil => exact ⟨_, .zero (by decide), by decide⟩
  | cons g word ih =>
    obtain ⟨t, ht, hle⟩ := ih
    obtain ⟨s, hs, hst⟩ := ht.apply_gate (isUnitary_ofWord word) g
    refine ⟨s, hs, ?_⟩
    calc s ≤ t + GateWord.tCount [g] := hst
      _ ≤ GateWord.tCount [g] + GateWord.tCount word := by omega
      _ = GateWord.tCount (g :: word) := (GateWord.tCount_append [g] word).symm

end Cost

/-! ### The word of an operator -/

namespace Synthesis

open QubitOp

theorem tCount_raise (j : ℕ) (word : GateWord) :
    GateWord.tCount (raise j ++ word) = j % 2 + word.tCount := by
  simp [GateWord.tCount, raise, tPower, List.count_replicate]

theorem Lowers.cost {u v : QubitOp ℕ} {word : GateWord} (h : Lowers u word v) {t : ℕ} (ht : Cost v t) :
    Cost u (word.tCount + t) := by
  induction h with
  | refl =>
    rw [show GateWord.tCount [] + t = t from Nat.zero_add t]
    exact ht
  | step hj hlt _ ih =>
    rw [tCount_raise, Nat.add_assoc]
    exact .step hj hlt (ih ht)

/-- The word of a unitary operator has as many gates `T` as the operator costs. -/
theorem cost_of_decompose {u : QubitOp ℕ} (hu : u.isUnitary = true) :
    ∃ word, decompose u = .ok word ∧ Cost u word.tCount ∧ ofWord word ≈ u := by
  obtain ⟨front, v, back, hok, hlow, h0, -, ⟨hcount, -⟩, hword⟩ := decompose_spec hu
  refine ⟨front ++ back, hok, ?_, hword⟩
  have hcost := hlow.cost (.zero h0)
  rwa [← hcount, ← GateWord.tCount_append] at hcost

end Synthesis

end CliffordT

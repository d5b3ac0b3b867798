import CliffordT.Proofs.Gate.Column

/-!
How many gates the word of an operator has.

A step that lowers the exponent lowers it by one, but for the last, which goes from two to zero. Each step writes one gate `H`,
and what is left at exponent zero is written without `H`. So the exponent determines the number of gates `H`; and as every step
but the first is an odd one, it bounds the number of gates `T` from both sides.
-/

namespace CliffordT

open Synthesis

namespace QubitOp

/-- Exactly one of the four steps lowers a positive exponent. -/
theorem existsUnique_lowering {u : QubitOp ℕ} (hu : u.isUnitary = true) (hs : 0 < u.exponent) :
    ∃! j, j < 4 ∧ (lower u j).exponent < u.exponent := by
  obtain ⟨j, hj, hlt⟩ := exists_lowering hu hs
  refine ⟨j, ⟨hj, hlt⟩, ?_⟩
  rintro i ⟨hi, hlt'⟩
  exact lowering_unique hu hi hj hlt' hlt

/-- Counted from one on, every step that lowers the exponent lowers it by one. -/
theorem exponent_lower_sub_one {u : QubitOp ℕ} (hu : u.isUnitary = true) {j : ℕ}
    (hlt : (lower u j).exponent < u.exponent) : (lower u j).exponent - 1 + 1 = u.exponent - 1 := by
  have hne := exponent_ne_one hu
  obtain h2 | h3 : u.exponent = 2 ∨ 3 ≤ u.exponent := by omega
  · rw [exponent_lower_of_two hu hlt h2, h2]
  · rw [exponent_lower_of_three_le hu hlt h3]
    omega

end QubitOp

/-- From exponent two on, the number of gates `T` is the exponent or falls short of it by at most two. -/
theorem Cost.near_exponent {u : QubitOp ℕ} {t : ℕ} (h : Cost u t) (hu : u.isUnitary = true) (hs : 2 ≤ u.exponent) :
    u.exponent - 2 ≤ t ∧ t ≤ u.exponent := by
  obtain ⟨j, hj, hlt⟩ := QubitOp.exists_lowering hu (by omega)
  obtain ⟨hlow, hhigh⟩ := h.bounds hu hj hlt
  omega

namespace Synthesis

open QubitOp

theorem count_H_raise (j : ℕ) (word : GateWord) : (raise j ++ word).count .H = word.count .H + 1 := by
  simp [raise, tPower, List.count_replicate]

/-- The steps from one operator to another have a gate `H` for each unit of the exponent that is lost. -/
theorem Lowers.count_H {u v : QubitOp ℕ} {word : GateWord} (h : Lowers u word v) (hu : u.isUnitary = true) :
    word.count .H + (v.exponent - 1) = u.exponent - 1 := by
  induction h with
  | refl u => rw [List.count_nil, Nat.zero_add]
  | @step u v j word hj hlt _ ih =>
    have hrest := ih (isUnitary_lower hu j)
    calc (raise j ++ word).count .H + (v.exponent - 1)
        = (word.count .H + (v.exponent - 1)) + 1 := by rw [count_H_raise, Nat.add_right_comm]
      _ = (lower u j).exponent - 1 + 1 := by rw [hrest]
      _ = u.exponent - 1 := exponent_lower_sub_one hu hlt

/-- Steps down to exponent zero and a tail without `H` have one gate `H` less than the exponent, if that is positive. -/
theorem Lowers.count_H_append {u v : QubitOp ℕ} {front back : GateWord} (h : Lowers u front v) (hu : u.isUnitary = true)
    (h0 : v.exponent = 0) (hback : back.count .H = 0) : (front ++ back).count .H = u.exponent - 1 := by
  have hfront := h.count_H hu
  rw [h0] at hfront
  rw [List.count_append, hback]
  exact hfront

theorem count_H_of_decompose {u : QubitOp ℕ} (hu : u.isUnitary = true) {word : GateWord} (h : decompose u = .ok word) :
    word.count .H = u.exponent - 1 := by
  obtain ⟨front, v, back, hok, hlow, h0, -, ⟨-, hback⟩, -⟩ := decompose_spec hu
  obtain rfl : front ++ back = word := Except.ok.inj (hok.symm.trans h)
  exact hlow.count_H_append hu h0 hback

end Synthesis

end CliffordT

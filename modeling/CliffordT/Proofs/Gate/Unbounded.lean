import CliffordT.Proofs.Gate.Action
import CliffordT.Proofs.Ring.Unbounded

/-!
Operators with stored exponents beside operators with exponents of any size.

A gate other than `H` keeps the exponents, and `H` raises them by at most one. So an operator and its product with gates are the
same in both, as long as one more than the largest exponent, and twice that exponent for a squared absolute value, can be
stored.
-/

namespace CliffordT

open Exponent

namespace QubitOp

variable {E : Type} [Exponent E]

/-- The same operator, with exponents of any size. -/
def unbounded (u : QubitOp E) : QubitOp ℕ := ⟨u.z.unbounded, u.w.unbounded, u.phase⟩

/-- The largest exponent of the first column, as it is stored. -/
def depth (u : QubitOp E) : ℕ := max (load u.z.exp) (load u.w.exp)

theorem unbounded_make (z w : CycloFrac E) (n : ℤ) : (make z w n).unbounded = make z.unbounded w.unbounded n := by
  simp only [make, unbounded, RootFrac.unbounded_reduce]

theorem unbounded_identity : (identity : QubitOp E).unbounded = identity := by
  rw [identity, unbounded_make, RootFrac.unbounded_one, RootFrac.unbounded_zero, identity]

theorem unbounded_timesT (u : QubitOp E) (j : ℤ) : (u.timesT j).unbounded = u.unbounded.timesT j := by
  rw [timesT, unbounded_make, timesT, CycloFrac.unbounded_timesOmegaPow]
  rfl

theorem unbounded_ofColumn (z w : CycloFrac E) : (ofColumn z w).unbounded = ofColumn z.unbounded w.unbounded := by
  have htest : load (z.reduce + w.reduce).reduce.exp < load z.reduce.exp ↔
      load (z.unbounded.reduce + w.unbounded.reduce).reduce.exp < load z.unbounded.reduce.exp := by
    simp only [← RootFrac.unbounded_reduce, ← RootFrac.unbounded_add, RootFrac.unbounded_exp, load_nat]
  rw [ofColumn, ofColumn]
  by_cases h : load (z.reduce + w.reduce).reduce.exp < load z.reduce.exp
  · rw [if_pos h, if_pos (htest.1 h), unbounded_make, RootFrac.unbounded_reduce, RootFrac.unbounded_reduce]
  · rw [if_neg h, if_neg (mt htest.2 h), unbounded_make, CycloFrac.unbounded_timesOmegaPow, RootFrac.unbounded_reduce,
      RootFrac.unbounded_reduce]

theorem unbounded_apply_of_ne {g : Gate} (hg : g ≠ .H) (u : QubitOp E) : (apply g u).unbounded = apply g u.unbounded := by
  cases g with
  | H => exact absurd rfl hg
  | T => exact unbounded_timesT u 1
  | S => exact unbounded_timesT u 2
  | X => exact unbounded_make _ _ _
  | W => exact unbounded_make _ _ _

/-- A gate does to a stored operator what it does to any operator, if one more than the largest exponent can be stored. -/
theorem unbounded_apply (g : Gate) {u : QubitOp E} (h : Stores E (u.depth + 1)) :
    (apply g u).unbounded = apply g u.unbounded := by
  by_cases hg : g = .H
  · subst hg
    have hadd : Stores E (load (u.z + u.w).exp + 1) := by rwa [RootFrac.exp_add]
    have hsub : Stores E (load (u.z - u.w).exp + 1) := by rwa [RootFrac.exp_sub]
    rw [apply, unbounded_make, RootFrac.unbounded_overRoot, RootFrac.unbounded_overRoot, RootFrac.unbounded_add,
      RootFrac.unbounded_sub]
    rfl
  · exact unbounded_apply_of_ne hg u

theorem depth_make_le (z w : CycloFrac E) (n : ℤ) : (make z w n).depth ≤ max (load z.exp) (load w.exp) :=
  max_le_max (RootFrac.load_reduce_le z) (RootFrac.load_reduce_le w)

theorem depth_timesT_le (u : QubitOp E) (j : ℤ) : (u.timesT j).depth ≤ u.depth := depth_make_le _ _ _

theorem depth_ofColumn_le (z w : CycloFrac E) : (ofColumn z w).depth ≤ max (load z.exp) (load w.exp) := by
  have hreduced := max_le_max (RootFrac.load_reduce_le z) (RootFrac.load_reduce_le w)
  rw [ofColumn]
  split <;> exact (depth_make_le _ _ _).trans hreduced

theorem depth_apply_le_of_ne {g : Gate} (hg : g ≠ .H) (u : QubitOp E) : (apply g u).depth ≤ u.depth := by
  cases g with
  | H => exact absurd rfl hg
  | T => exact depth_timesT_le u 1
  | S => exact depth_timesT_le u 2
  | X => exact (depth_make_le _ _ _).trans_eq (max_comm _ _)
  | W => exact depth_make_le _ _ _

theorem depth_apply_H_le (u : QubitOp E) : (apply .H u).depth ≤ u.depth + 1 := by
  have hnext (x : CycloFrac E) : load x.overRoot.exp ≤ load x.exp + 1 := load_store_le _
  refine (depth_make_le _ _ _).trans (max_le ((hnext _).trans ?_) ((hnext _).trans ?_))
  · rw [RootFrac.exp_add, depth]
  · rw [RootFrac.exp_sub, depth]

theorem unbounded_lower {u : QubitOp E} (h : Stores E (u.depth + 1)) (j : ℕ) :
    (Synthesis.lower u j).unbounded = Synthesis.lower u.unbounded j := by
  have hturned := h.of_le (Nat.succ_le_succ (depth_timesT_le u (-(j : ℤ))))
  rw [Synthesis.lower, unbounded_apply .H hturned, unbounded_timesT, Synthesis.lower]

theorem depth_lower_le (u : QubitOp E) (j : ℕ) : (Synthesis.lower u j).depth ≤ u.depth + 1 :=
  (depth_apply_H_le _).trans (Nat.succ_le_succ (depth_timesT_le u _))

/-- The exponents of the operator of a word are at most the number of its gates `H`. -/
theorem unbounded_ofWord (word : GateWord) (h : Stores E (word.count .H)) :
    (ofWord word : QubitOp E).unbounded = ofWord word ∧ (ofWord word : QubitOp E).depth ≤ word.count .H := by
  induction word with
  | nil =>
    refine ⟨unbounded_identity, (depth_make_le _ _ _).trans ?_⟩
    exact max_le (RootFrac.exp_ofRing 1).le (RootFrac.exp_ofRing 0).le
  | cons g word ih =>
    obtain ⟨heq, hdepth⟩ := ih (h.of_le (List.count_le_count_cons ..))
    by_cases hg : g = .H
    · subst hg
      rw [List.count_cons_self] at h ⊢
      refine ⟨?_, (depth_apply_H_le _).trans (Nat.succ_le_succ hdepth)⟩
      exact (unbounded_apply .H (h.of_le (Nat.succ_le_succ hdepth))).trans (congrArg (apply .H) heq)
    · rw [List.count_cons_of_ne hg]
      exact ⟨(unbounded_apply_of_ne hg _).trans (congrArg (apply g) heq), (depth_apply_le_of_ne hg _).trans hdepth⟩

/-! ### Tests -/

@[simp] theorem same_unbounded (u v : QubitOp E) : u.unbounded.same v.unbounded = u.same v := by
  simp only [same, unbounded, RootFrac.same_unbounded]
  rfl

theorem text_unbounded (u : QubitOp E) : u.unbounded.text = u.text := rfl

theorem isUnitary_unbounded {u : QubitOp E} (h : Stores E (2 * u.depth)) : u.unbounded.isUnitary = u.isUnitary := by
  have hz : Stores E (2 * load u.z.exp) := h.of_le (Nat.mul_le_mul_left 2 (le_max_left _ _))
  have hw : Stores E (2 * load u.w.exp) := h.of_le (Nat.mul_le_mul_left 2 (le_max_right _ _))
  have hsum : (CycloFrac.absSq u.z + CycloFrac.absSq u.w).unbounded =
      CycloFrac.absSq u.unbounded.z + CycloFrac.absSq u.unbounded.w := by
    rw [RootFrac.unbounded_add, CycloFrac.unbounded_absSq, CycloFrac.unbounded_absSq]
    rfl
  rw [isUnitary, ← hsum, ← RootFrac.unbounded_one (E := E), RootFrac.same_unbounded, isUnitary]

/-- A column has length one, whether exponents are stored or not. -/
theorem same_one_unbounded {z w : CycloFrac E} (h : Stores E (2 * max (load z.exp) (load w.exp))) :
    (CycloFrac.absSq z.unbounded + CycloFrac.absSq w.unbounded).same 1 = (CycloFrac.absSq z + CycloFrac.absSq w).same 1 :=
  isUnitary_unbounded (u := ⟨z, w, 0⟩) h

theorem exponent_unbounded {u : QubitOp E} (h : Stores E (2 * u.depth)) : u.unbounded.exponent = u.exponent := by
  have hz : Stores E (2 * load u.z.exp) := h.of_le (Nat.mul_le_mul_left 2 (le_max_left _ _))
  rw [exponent, exponent, ← RootFrac.unbounded_exp (CycloFrac.absSq u.z).reduce, RootFrac.unbounded_reduce, CycloFrac.unbounded_absSq]
  rfl

end QubitOp

end CliffordT

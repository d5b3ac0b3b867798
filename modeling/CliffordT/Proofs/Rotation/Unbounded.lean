import CliffordT.Proofs.Gate.Unbounded
import CliffordT.Rotation.Distance

/-!
Distances of operators with stored exponents.

Parts of an entry have an exponent that is one larger. Where it can be stored, the entries of an operator are evaluated as if
exponents had any size, and so are its distances from rotations.
-/

namespace CliffordT

open Exponent

variable {K E : Type} [Scalar K] [Exponent E]

theorem QuadFrac.eval_unbounded (x : QuadFrac E) : (QuadFrac.eval x.unbounded : K) = x.eval := rfl

theorem CycloFrac.eval_unbounded (x : CycloFrac E) [Stores E (load x.exp + 1)] : (CycloFrac.eval x.unbounded : K × K) = x.eval := by
  rw [eval, ← unbounded_re, ← unbounded_im, QuadFrac.eval_unbounded, QuadFrac.eval_unbounded, eval]

namespace QubitOp

theorem eval_unbounded {u : QubitOp E} (h : Stores E (u.depth + 1)) : (u.unbounded.eval : Square (K × K)) = u.eval := by
  have hentry {x : CycloFrac E} (hx : load x.exp ≤ u.depth) : (CycloFrac.eval x.unbounded : K × K) = x.eval := by
    have := h.of_le (Nat.succ_le_succ hx)
    exact CycloFrac.eval_unbounded x
  have hz : load u.z.exp ≤ u.depth := le_max_left _ _
  have hw : load u.w.exp ≤ u.depth := le_max_right _ _
  rw [eval, eval, Square.map, Square.map, Square.mk.injEq]
  exact ⟨hentry hz, hentry (x := u.entries.m₀₁) hw, hentry hw, hentry (x := u.entries.m₁₁) hz⟩

theorem distance_unbounded {u : QubitOp E} (h : Stores E (u.depth + 1)) (theta : K) :
    u.unbounded.distance theta = u.distance theta := by
  rw [distance, distance, eval_unbounded h]

end QubitOp

end CliffordT

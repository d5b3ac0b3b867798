import CliffordT.Plane.Region
import CliffordT.Proofs.Ring.Order

/-!
Membership in the unit disk is decided exactly, as the order of `𝔻[√2]` is that of the real numbers.
-/

namespace CliffordT

open Exponent

variable {E : Type} [Exponent E]

theorem CycloFrac.toReal_absSq (u : CycloFrac E) [Stores E (2 * load u.exp)] : (absSq u).toReal = ‖u.value‖ ^ 2 := by
  apply QuadFrac.toReal_eq_of_value
  rw [value_absSq, Complex.mul_conj', Complex.ofReal_pow]

namespace Disk

theorem inside_iff (u : CycloFrac E) [Stores E (2 * load u.exp)] : inside u = true ↔ ‖u.value‖ ≤ 1 := by
  rw [inside, bne_iff_ne, QuadFrac.order_eq, CycloFrac.toReal_absSq, QuadFrac.toReal_one, Ne, compare_gt_iff_gt, not_lt, sq_le_one_iff₀ (norm_nonneg _)]

theorem parts_mem_of_inside {u : CycloFrac E} [Stores E (2 * load u.exp)] (h : inside u = true) :
    u.value.re ∈ Set.Icc (-1) 1 ∧ u.value.im ∈ Set.Icc (-1) 1 := by
  have hnorm := (inside_iff u).1 h
  exact ⟨abs_le.1 ((Complex.abs_re_le_norm _).trans hnorm), abs_le.1 ((Complex.abs_im_le_norm _).trans hnorm)⟩

end Disk

end CliffordT

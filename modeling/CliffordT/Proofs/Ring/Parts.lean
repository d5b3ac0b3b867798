import CliffordT.Proofs.Ring.Value

/-!
Real and imaginary parts of fractions over `ℤ[ω]`.

The parts are those of the complex number that the fraction stands for. They determine it, and a number made from parts has these
parts.
-/

namespace CliffordT.CycloFrac

open Exponent

variable {E : Type} [Exponent E]

/-- The number made of the parts; where the larger exponent cannot be stored, it is off by a power of `√2`. -/
theorem value_parts (x : CycloFrac E) :
    (re x).value + (im x).value * Complex.I = x.value * sqrtTwo ^ (load x.exp + 1) / sqrtTwo ^ load (next x.exp) := by
  have hone : eighthRoot * sqrtTwo = 1 + Complex.I := by
    rw [eighthRoot]
    field_simp
  have hcube : eighthRoot ^ 3 = eighthRoot * Complex.I := by
    rw [← eighthRoot_sq]
    ring
  rw [re, im, RootFrac.value_mk, RootFrac.value_mk, RootFrac.value, QuadInt.value_eq, QuadInt.value_eq,
    CycloInt.value_eq, QuadInt.realHom_apply, QuadInt.realHom_apply, CycloInt.complexHom_apply, hcube, eighthRoot_sq,
    pow_succ]
  push_cast
  rw [← sqrtTwo_eq_ofReal, div_mul_eq_mul_div, ← add_div, ← mul_assoc, div_mul_cancel₀ _ (by simp)]
  congr 1
  linear_combination -((x.num.x₁ + x.num.x₃ * Complex.I) * hone + (x.num.x₃ : ℂ) * Complex.I_sq)

theorem value_eq_parts (x : CycloFrac E) [Stores E (load x.exp + 1)] :
    x.value = (re x).value + (im x).value * Complex.I := by
  rw [value_parts, load_next, mul_div_cancel_right₀ _ (by simp)]

theorem value_re (x : CycloFrac E) [Stores E (load x.exp + 1)] : x.value.re = (re x).toReal := by
  rw [value_eq_parts, QuadFrac.value_eq_toReal, QuadFrac.value_eq_toReal]
  simp

theorem value_im (x : CycloFrac E) [Stores E (load x.exp + 1)] : x.value.im = (im x).toReal := by
  rw [value_eq_parts, QuadFrac.value_eq_toReal, QuadFrac.value_eq_toReal]
  simp

theorem value_re_eq (x : CycloFrac E) [Stores E (load x.exp + 1)] : (re x).value = (x.value.re : ℂ) := by
  rw [value_re, QuadFrac.value_eq_toReal]

theorem value_im_eq (x : CycloFrac E) [Stores E (load x.exp + 1)] : (im x).value = (x.value.im : ℂ) := by
  rw [value_im, QuadFrac.value_eq_toReal]

theorem value_ofParts (x y : QuadFrac E) : (ofParts x y).value = x.value + y.value * Complex.I := by
  rw [ofParts, RootFrac.value_add, value_ofReal, value_timesOmegaPow, value_ofReal,
    show eighthRoot ^ (2 : ℤ) = Complex.I from eighthRoot_sq]

theorem parts_eq {x y x' y' : QuadFrac E} (h : x.value + y.value * Complex.I = x'.value + y'.value * Complex.I) :
    x.value = x'.value ∧ y.value = y'.value := by
  simp only [QuadFrac.value_eq_toReal] at h ⊢
  constructor
  · have hre := congrArg Complex.re h
    simp at hre
    rw [hre]
  · have him := congrArg Complex.im h
    simp at him
    rw [him]

theorem value_eq_iff (x y : CycloFrac E) [Stores E (load x.exp + 1)] [Stores E (load y.exp + 1)] :
    x.value = y.value ↔ (re x).value = (re y).value ∧ (im x).value = (im y).value := by
  constructor
  · intro h
    rw [value_eq_parts, value_eq_parts] at h
    exact parts_eq h
  · intro h
    rw [value_eq_parts, value_eq_parts, h.1, h.2]

@[simp] theorem exp_ofParts (x y : QuadFrac E) : load (ofParts x y).exp = max (load x.exp) (load y.exp) :=
  RootFrac.exp_add _ _

theorem value_parts_ofParts (x y : QuadFrac E) [Stores E (max (load x.exp) (load y.exp) + 1)] :
    (re (ofParts x y)).value = x.value ∧ (im (ofParts x y)).value = y.value := by
  have : Stores E (load (ofParts x y).exp + 1) := by rwa [exp_ofParts]
  exact parts_eq (by rw [← value_eq_parts, value_ofParts])

theorem value_imaginaryUnit : (imaginaryUnit : CycloFrac E).value = Complex.I := by
  rw [imaginaryUnit, RootFrac.value_ofRing, CycloInt.value_eq, CycloInt.complexHom_apply]
  simp [CycloInt.imaginaryUnit, eighthRoot_sq]

end CliffordT.CycloFrac

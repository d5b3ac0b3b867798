import CliffordT.Proofs.Ring.Conjugate

/-!
The conjugation that sends `√2` to `-√2` is one automorphism of all four rings.

On each of `ℤ[√2]`, `ℤ[ω]`, `𝔻[√2]` and `𝔻[ω]` it is defined on its own, with a sign for odd denominator exponents. It respects
sums and products, and it commutes with every passage between the rings, also where the passage changes the parity of the
exponent.
-/

namespace CliffordT

/-- A map of a ring that contains `√2` to itself is an automorphism that sends `√2` to `-√2`, and doing it twice does nothing. -/
structure IsRootConjugation {R : Type} [Add R] [Mul R] [Neg R] (root : R) (bullet : R → R) : Prop where
  add (x y : R) : bullet (x + y) = bullet x + bullet y
  mul (x y : R) : bullet (x * y) = bullet x * bullet y
  involutive : Function.Involutive bullet
  root : bullet root = -root

theorem QuadInt.isRootConjugation_bullet : IsRootConjugation root bullet where
  add := bullet_add
  mul := bullet_mul
  involutive := bullet_bullet
  root := by decide

theorem CycloInt.isRootConjugation_bullet : IsRootConjugation (ofQuad QuadInt.root) bullet where
  add := map_add bulletHom
  mul := bullet_mul
  involutive := bullet_bullet
  root := by decide

namespace RootFrac

open Exponent

variable {R E : Type} [RootTwoRing R] [NumberRing R] [ConjugateRing R] [Exponent E]

/-- Conjugation does not touch the stored exponents, so what holds of the numbers holds of the fractions. -/
theorem bullet_add (x y : RootFrac R E) : (x + y).bullet = x.bullet + y.bullet := eq_of_value rfl (by simp)

theorem bullet_sub (x y : RootFrac R E) : (x - y).bullet = x.bullet - y.bullet := eq_of_value rfl (by simp)

theorem bullet_neg (x : RootFrac R E) : (-x).bullet = -x.bullet := eq_of_value rfl (by simp)

theorem bullet_bullet (x : RootFrac R E) : x.bullet.bullet = x := eq_of_value rfl (value_bullet_bullet x)

omit [NumberRing R] [ConjugateRing R] in
theorem bullet_ofRing (r : R) : (ofRing r : RootFrac R E).bullet = ofRing (RootTwoRing.bullet r) :=
  bullet_of_even (by rw [load_zero]) r

theorem isRootConjugation_bullet {root : R} (h : RootTwoRing.bullet root = -root) :
    IsRootConjugation (ofRing root : RootFrac R E) bullet where
  add := bullet_add
  mul := bullet_mul
  involutive := bullet_bullet
  root := by
    rw [bullet_ofRing, h]
    rfl

end RootFrac

namespace QuadFrac

variable {E : Type} [Exponent E]

theorem bullet_zero : (0 : QuadFrac E).bullet = 0 := RootFrac.bullet_ofRing 0

theorem bullet_one : (1 : QuadFrac E).bullet = 1 := RootFrac.bullet_ofRing 1

end QuadFrac

namespace CycloFrac

open Exponent

variable {E : Type} [Exponent E]

theorem conj_bullet (x : CycloFrac E) : conj x.bullet = (conj x).bullet := by
  obtain ⟨n, e⟩ := x
  have hconj : CycloInt.conj (RootTwoRing.bullet n) = RootTwoRing.bullet n.conj := CycloInt.bullet_conj n
  rcases Nat.mod_two_eq_zero_or_one (load e) with h | h
  · rw [conj, conj, RootFrac.bullet_of_even h, RootFrac.bullet_of_even h, hconj]
  · rw [conj, conj, RootFrac.bullet_of_odd h, RootFrac.bullet_of_odd h, ← hconj]
    exact congrArg (RootFrac.mk · e) (map_neg CycloInt.conjHom _)

/-- A squared absolute value has an even exponent, and no sign. -/
theorem absSq_bullet (x : CycloFrac E) : absSq x.bullet = (absSq x).bullet := by
  obtain ⟨n, e⟩ := x
  have hneg (m : CycloInt) : (-m).absSq = m.absSq := by
    apply QuadInt.ext <;> simp [CycloInt.absSq]
  have habs : CycloInt.absSq (RootTwoRing.bullet n) = RootTwoRing.bullet n.absSq := CycloInt.absSq_bullet n
  have hparity : load (store (2 * load e) : E) % 2 = 2 * load e % 2 := load_store_mod_two _
  rw [absSq, absSq, RootFrac.bullet_of_even (e := store (2 * load e)) (by omega), ← habs]
  rcases Nat.mod_two_eq_zero_or_one (load e) with h | h
  · rw [RootFrac.bullet_of_even h]
  · rw [RootFrac.bullet_of_odd h]
    exact congrArg (RootFrac.mk · (store (2 * load e))) (hneg _)

theorem bullet_imaginaryUnit : (imaginaryUnit : CycloFrac E).bullet = imaginaryUnit := by
  rw [imaginaryUnit, RootFrac.bullet_ofRing]
  exact congrArg RootFrac.ofRing (by decide)

theorem timesOmegaPow_two_eq (x : CycloFrac E) : timesOmegaPow x 2 = x * imaginaryUnit := by
  have hexp : load x.exp + load (imaginaryUnit : CycloFrac E).exp = load x.exp := by
    rw [imaginaryUnit, RootFrac.exp_ofRing, add_zero]
  have : Stores E (load x.exp + load (imaginaryUnit : CycloFrac E).exp) := by rw [hexp]; infer_instance
  refine RootFrac.eq_of_value ?_ ?_
  · exact load_injective (hexp.symm.trans load_store.symm)
  rw [value_timesOmegaPow, RootFrac.value_mul, value_imaginaryUnit, show eighthRoot ^ (2 : ℤ) = Complex.I from eighthRoot_sq]

theorem ofParts_bullet (x y : QuadFrac E) : (ofParts x y).bullet = ofParts x.bullet y.bullet := by
  rw [ofParts, ofParts, timesOmegaPow_two_eq, timesOmegaPow_two_eq, RootFrac.bullet_add, RootFrac.bullet_mul,
    bullet_imaginaryUnit, ofReal_bullet, ofReal_bullet]

/-- A number is made of its parts, if the larger exponent of the parts can be stored; of the other numbers only zero is. -/
theorem ofParts_re_im (x : CycloFrac E) :
    (ofParts (re x) (im x)).same x = true ↔ x.isZero = true ∨ Stores E (load x.exp + 1) := by
  rw [RootFrac.same_iff, value_ofParts, value_parts, RootFrac.isZero_iff, div_eq_iff (by simp), mul_eq_mul_left_iff, or_comm]
  refine or_congr_right ⟨fun h => ⟨?_⟩, fun h => ?_⟩
  · exact sqrtTwo_pow_injective h.symm
  · rw [load_next]

/-- Both sides store twice the exponent. -/
theorem ofReal_absSq (x : CycloFrac E) : ofReal (absSq x) = x * conj x := by
  rw [ofReal, absSq, ← CycloInt.mul_conj, two_mul]
  rfl

/-- What conjugation, the parts of a number and its squared absolute value owe each other. -/
structure Compatible {E : Type} [Exponent E] (x : CycloFrac E) : Prop where
  conj_bullet : conj x.bullet = (conj x).bullet
  re_bullet : re x.bullet = (re x).bullet
  im_bullet : im x.bullet = (im x).bullet
  absSq_bullet : absSq x.bullet = (absSq x).bullet
  ofParts_re_im : (ofParts (re x) (im x)).same x = true ↔ x.isZero = true ∨ Stores E (load x.exp + 1)
  ofReal_absSq : ofReal (absSq x) = x * conj x

/-- The four conjugations are automorphisms that send `√2` to `-√2` and fix `i`, and they are the same map: they commute with the
embeddings, with complex conjugation, with real and imaginary parts and with the squared absolute value. This holds of all stored
fractions. Numbers of `𝔻[ω]` are made of their parts exactly where the exponent of the parts can be stored, zero apart,
and the two norms are multiplicative and vanish at zero only. -/
theorem bullet_automorphism (E : Type) [Exponent E] :
    (IsRootConjugation QuadInt.root QuadInt.bullet ∧
      IsRootConjugation (CycloInt.ofQuad QuadInt.root) CycloInt.bullet ∧
      IsRootConjugation (RootFrac.ofRing QuadInt.root) (RootFrac.bullet : QuadFrac E → QuadFrac E) ∧
      IsRootConjugation (RootFrac.ofRing (CycloInt.ofQuad QuadInt.root)) (RootFrac.bullet : CycloFrac E → CycloFrac E)) ∧
    (CycloInt.imaginaryUnit.bullet = CycloInt.imaginaryUnit ∧ (imaginaryUnit : CycloFrac E).bullet = imaginaryUnit) ∧
    ((∀ x : QuadInt, (CycloInt.ofQuad x).bullet = CycloInt.ofQuad x.bullet) ∧
      (∀ x : QuadInt, (RootFrac.ofRing x : QuadFrac E).bullet = RootFrac.ofRing x.bullet) ∧
      (∀ x : CycloInt, (RootFrac.ofRing x : CycloFrac E).bullet = RootFrac.ofRing x.bullet) ∧
      (∀ x : QuadFrac E, (ofReal x).bullet = ofReal x.bullet) ∧
      ∀ x y : QuadFrac E, (ofParts x y).bullet = ofParts x.bullet y.bullet) ∧
    (∀ x : CycloFrac E, Compatible x) ∧
    ((∀ x y : QuadInt, (x * y).norm = x.norm * y.norm) ∧ (∀ x : QuadInt, x.norm = 0 ↔ x = 0) ∧
      (∀ x y : CycloInt, (x * y).norm = x.norm * y.norm) ∧ (∀ x : CycloInt, 0 ≤ x.norm) ∧
      ∀ x : CycloInt, x.norm = 0 ↔ x = 0) := by
  refine ⟨⟨QuadInt.isRootConjugation_bullet, CycloInt.isRootConjugation_bullet, ?_, ?_⟩, ⟨by decide, bullet_imaginaryUnit⟩,
    ⟨CycloInt.bullet_ofQuad, RootFrac.bullet_ofRing, RootFrac.bullet_ofRing, ofReal_bullet, ofParts_bullet⟩, fun x => ?_, ?_⟩
  · exact RootFrac.isRootConjugation_bullet QuadInt.isRootConjugation_bullet.root
  · exact RootFrac.isRootConjugation_bullet CycloInt.isRootConjugation_bullet.root
  · exact ⟨conj_bullet x, re_bullet x, im_bullet x, absSq_bullet x, ofParts_re_im x, ofReal_absSq x⟩
  · exact ⟨QuadInt.norm_mul, QuadInt.norm_eq_zero_iff, CycloInt.norm_mul, CycloInt.norm_nonneg, CycloInt.norm_eq_zero_iff⟩

end CycloFrac

end CliffordT

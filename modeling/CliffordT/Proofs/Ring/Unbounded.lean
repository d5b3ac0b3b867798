import CliffordT.Proofs.Ring.Conjugate

/-!
Stored fractions beside fractions with exponents of any size.

Forgetting that an exponent is stored keeps the number, and with it everything that depends on the number only. It goes
through all operations that keep or compare exponents. Through a product, a quotient by `√2`, the parts and the squared absolute
value it goes where the new exponent can be stored.
-/

namespace CliffordT

open Exponent

namespace RootFrac

variable {R E : Type} [RootTwoRing R] [Exponent E]

/-- The same fraction, with an exponent of any size. -/
def unbounded (x : RootFrac R E) : RootFrac R ℕ := ⟨x.num, load x.exp⟩

omit [RootTwoRing R] in
theorem unbounded_injective : Function.Injective (unbounded : RootFrac R E → RootFrac R ℕ) := by
  rintro ⟨m, e⟩ ⟨n, f⟩ h
  obtain ⟨hnum, hexp⟩ := mk.inj h
  exact congr (congrArg mk hnum) (load_injective hexp)

omit [RootTwoRing R] in
@[simp] theorem unbounded_exp (x : RootFrac R E) : x.unbounded.exp = load x.exp := rfl

@[simp] theorem value_unbounded [NumberRing R] (x : RootFrac R E) : x.unbounded.value = x.value := rfl

omit [RootTwoRing R] in
@[simp] theorem unbounded_ofRing (r : R) : (ofRing r : RootFrac R E).unbounded = ofRing r := by
  rw [unbounded, ofRing, load_zero]
  rfl

@[simp] theorem unbounded_zero : (0 : RootFrac R E).unbounded = 0 := unbounded_ofRing 0

@[simp] theorem unbounded_one : (1 : RootFrac R E).unbounded = 1 := unbounded_ofRing 1

@[simp] theorem unbounded_add (x y : RootFrac R E) : (x + y).unbounded = x.unbounded + y.unbounded :=
  congrArg (RootFrac.mk _) (exp_add x y)

@[simp] theorem unbounded_sub (x y : RootFrac R E) : (x - y).unbounded = x.unbounded - y.unbounded :=
  congrArg (RootFrac.mk _) (exp_sub x y)

@[simp] theorem unbounded_neg (x : RootFrac R E) : (-x).unbounded = -x.unbounded := rfl

@[simp] theorem unbounded_bullet (x : RootFrac R E) : x.bullet.unbounded = x.unbounded.bullet := rfl

theorem unbounded_mul (x y : RootFrac R E) [Stores E (load x.exp + load y.exp)] :
    (x * y).unbounded = x.unbounded * y.unbounded :=
  congrArg (RootFrac.mk _) load_store

omit [RootTwoRing R] in
theorem unbounded_overRoot (x : RootFrac R E) [Stores E (load x.exp + 1)] : x.overRoot.unbounded = x.unbounded.overRoot :=
  congrArg (RootFrac.mk _) (load_next _)

theorem unbounded_divideOut (r : R) (k : ℕ) (hk : Stores E k) :
    (divideOut r k : RootFrac R E).unbounded = divideOut r k := by
  induction k generalizing r with
  | zero => exact unbounded_ofRing r
  | succ k ih =>
    rw [divideOut, divideOut]
    split
    · exact ih _ (hk.of_le k.le_succ)
    · exact congrArg (RootFrac.mk r) load_store

variable [DecidableEq R]

@[simp] theorem unbounded_reduce (x : RootFrac R E) : x.reduce.unbounded = x.unbounded.reduce := by
  rw [reduce, reduce]
  split
  · next h => rw [if_pos (show x.unbounded.num = 0 from h), unbounded_zero]
  · next h =>
    rw [if_neg (show ¬x.unbounded.num = 0 from h)]
    exact unbounded_divideOut _ _ inferInstance

@[simp] theorem isZero_unbounded (x : RootFrac R E) : x.unbounded.isZero = x.isZero := rfl

@[simp] theorem same_unbounded (x y : RootFrac R E) : x.unbounded.same y.unbounded = x.same y := by
  rw [same, same, ← unbounded_sub, isZero_unbounded]

end RootFrac

namespace QuadFrac

variable {E : Type} [Exponent E]

@[simp] theorem toReal_unbounded (x : QuadFrac E) : QuadFrac.toReal x.unbounded = x.toReal := rfl

end QuadFrac

namespace CycloFrac

variable {E : Type} [Exponent E]

@[simp] theorem unbounded_ofReal (x : QuadFrac E) : (ofReal x).unbounded = ofReal x.unbounded := rfl

@[simp] theorem unbounded_conj (x : CycloFrac E) : (conj x).unbounded = conj x.unbounded := rfl

@[simp] theorem unbounded_timesOmegaPow (x : CycloFrac E) (n : ℤ) :
    (timesOmegaPow x n).unbounded = timesOmegaPow x.unbounded n := rfl

@[simp] theorem unbounded_ofParts (x y : QuadFrac E) : (ofParts x y).unbounded = ofParts x.unbounded y.unbounded := by
  rw [ofParts, ofParts, RootFrac.unbounded_add, unbounded_timesOmegaPow, unbounded_ofReal, unbounded_ofReal]

theorem unbounded_re (x : CycloFrac E) [Stores E (load x.exp + 1)] : (re x).unbounded = re x.unbounded :=
  congrArg (RootFrac.mk _) (load_next _)

theorem unbounded_im (x : CycloFrac E) [Stores E (load x.exp + 1)] : (im x).unbounded = im x.unbounded :=
  congrArg (RootFrac.mk _) (load_next _)

theorem unbounded_absSq (x : CycloFrac E) [Stores E (2 * load x.exp)] : (absSq x).unbounded = absSq x.unbounded :=
  congrArg (RootFrac.mk _) load_store

end CycloFrac

end CliffordT

import CliffordT.Proofs.Ring.Conjugate
import CliffordT.Proofs.Ring.Order

/-!
The representations of one number can stand for each other.

Two fractions are equal when they are the same number, and every number has one reduced fraction, whose exponent is the least with which
it can be written. Each operation on fractions is an operation on numbers: its result depends on the numbers alone, and never on
the exponents with which they are stored, as long as the exponent of the result can be stored as well.
-/

namespace CliffordT

namespace RootFrac

open Exponent

variable {R S E : Type} [RootTwoRing R] [DecidableEq R] [RootTwoRing S] [DecidableEq S] [Exponent E]

/-- The operation gives the same number for all representations of a number for which its result can be stored. -/
def RespectsWhere (fits : RootFrac R E → Prop) (f : RootFrac R E → RootFrac S E) : Prop :=
  ∀ x x', fits x → fits x' → x.same x' = true → (f x).same (f x') = true

/-- The operation gives the same number for all representations of a number. -/
def Respects (f : RootFrac R E → RootFrac S E) : Prop := RespectsWhere (fun _ => True) f

/-- The operation gives the same number for all representations of two numbers for which its result can be stored. -/
def RespectsWhere₂ (fits : RootFrac R E → RootFrac R E → Prop) (f : RootFrac R E → RootFrac R E → RootFrac S E) : Prop :=
  ∀ x x' y y', fits x y → fits x' y' → x.same x' = true → y.same y' = true → (f x y).same (f x' y') = true

/-- The operation gives the same number for all representations of two numbers. -/
def Respects₂ (f : RootFrac R E → RootFrac R E → RootFrac S E) : Prop := RespectsWhere₂ (fun _ _ => True) f

variable [NumberRing R] [NumberRing S]

theorem respectsWhere_of_value {fits : RootFrac R E → Prop} {f : RootFrac R E → RootFrac S E} (φ : ℂ → ℂ)
    (h : ∀ x, fits x → (f x).value = φ x.value) : RespectsWhere fits f := by
  intro x x' hfits hfits' hx
  rw [same_iff] at hx ⊢
  rw [h x hfits, h x' hfits', hx]

theorem respectsWhere₂_of_value {fits : RootFrac R E → RootFrac R E → Prop} {f : RootFrac R E → RootFrac R E → RootFrac S E}
    (φ : ℂ → ℂ → ℂ) (h : ∀ x y, fits x y → (f x y).value = φ x.value y.value) : RespectsWhere₂ fits f := by
  intro x x' y y' hfits hfits' hx hy
  rw [same_iff] at hx hy ⊢
  rw [h x y hfits, h x' y' hfits', hx, hy]

omit [DecidableEq R] in
/-- Raising the exponent changes the representation only. -/
theorem value_raise (x : RootFrac R E) {k : E} (h : load x.exp ≤ load k) : (x.raise k).value = x.value :=
  value_numOver x h

theorem isLeast_reduce_exp (x : RootFrac R E) :
    IsLeast {k | ∃ r : R, x.value * sqrtTwo ^ k = NumberRing.value r} (load x.reduce.exp) := by
  constructor
  · exact (reduce_exp_le_iff x _).1 le_rfl
  · intro k hk
    exact (reduce_exp_le_iff x k).2 hk

theorem same_iff_reduce (x y : RootFrac R E) :
    x.same y = true ↔ x.reduce.num = y.reduce.num ∧ x.reduce.exp = y.reduce.exp := by
  rw [same_iff, ← reduce_eq_iff, RootFrac.mk.injEq]

/-- What the fractions over a ring owe their users: equality of numbers is decided, reducing is canonical, and the arithmetic works
on numbers, products where the sum of the exponents can be stored. -/
structure Interchangeable (R E : Type) [RootTwoRing R] [DecidableEq R] [NumberRing R] [Exponent E] : Prop where
  same_iff (x y : RootFrac R E) : x.same y = true ↔ x.value = y.value
  value_reduce (x : RootFrac R E) : x.reduce.value = x.value
  isLeast_reduce_exp (x : RootFrac R E) :
    IsLeast {k | ∃ r : R, x.value * sqrtTwo ^ k = NumberRing.value r} (load x.reduce.exp)
  same_iff_reduce (x y : RootFrac R E) : x.same y = true ↔ x.reduce.num = y.reduce.num ∧ x.reduce.exp = y.reduce.exp
  value_raise (x : RootFrac R E) (k : E) (h : load x.exp ≤ load k) : (x.raise k).value = x.value
  add : Respects₂ fun x y : RootFrac R E => x + y
  sub : Respects₂ fun x y : RootFrac R E => x - y
  mul : RespectsWhere₂ (fun x y => Stores E (load x.exp + load y.exp)) fun x y : RootFrac R E => x * y
  neg : Respects fun x : RootFrac R E => -x
  bullet : Respects fun x : RootFrac R E => x.bullet

theorem interchangeable [ConjugateRing R] : Interchangeable R E where
  same_iff := same_iff
  value_reduce := value_reduce
  isLeast_reduce_exp := isLeast_reduce_exp
  same_iff_reduce := same_iff_reduce
  value_raise x _ := value_raise x
  add := respectsWhere₂_of_value (· + ·) fun x y _ => value_add x y
  sub := respectsWhere₂_of_value (· - ·) fun x y _ => value_sub x y
  mul := respectsWhere₂_of_value (· * ·) fun x y _ => value_mul x y
  neg := respectsWhere_of_value (- ·) fun x _ => value_neg x
  bullet := by
    -- The conjugate is no function of the value that could be written down, but it respects equality of values.
    intro x x' _ _ hx
    rw [same_iff] at hx ⊢
    exact value_bullet_congr hx

end RootFrac

namespace QuadFrac

variable {E : Type} [Exponent E]

theorem sign_congr {x x' : QuadFrac E} (h : x.same x' = true) : x.sign = x'.sign := by
  rw [sign_eq, sign_eq, (same_iff_toReal x x').1 h]

theorem order_congr {x x' y y' : QuadFrac E} (hx : x.same x' = true) (hy : y.same y' = true) : order x y = order x' y' := by
  rw [order_eq, order_eq, (same_iff_toReal x x').1 hx, (same_iff_toReal y y').1 hy]

end QuadFrac

namespace CycloFrac

open Exponent RootFrac

/-- Fractions over `ℤ[√2]` and over `ℤ[ω]` are equal exactly when they are the same number, reducing leads to the one representation with
the least exponent, and no operation depends on the representations of its arguments: neither the arithmetic nor the passage from
`𝔻[ω]` to `𝔻[√2]`, both where the exponent of the result can be stored, nor the order. -/
theorem representations_interchangeable (E : Type) [Exponent E] :
    Interchangeable QuadInt E ∧ Interchangeable CycloInt E ∧
      Respects (conj : CycloFrac E → CycloFrac E) ∧
      RespectsWhere (fun x : CycloFrac E => Stores E (2 * load x.exp)) absSq ∧
      RespectsWhere (fun x : CycloFrac E => Stores E (load x.exp + 1)) re ∧
      RespectsWhere (fun x : CycloFrac E => Stores E (load x.exp + 1)) im ∧
      (∀ x x' : QuadFrac E, x.same x' = true → x.sign = x'.sign) ∧
      ∀ x x' y y' : QuadFrac E, x.same x' = true → y.same y' = true → QuadFrac.order x y = QuadFrac.order x' y' := by
  refine ⟨interchangeable, interchangeable, ?_, ?_, ?_, ?_, ?_, ?_⟩
  · exact respectsWhere_of_value (starRingEnd ℂ) fun x _ => value_conj x
  · exact respectsWhere_of_value (fun v => v * (starRingEnd ℂ) v) fun x _ => value_absSq x
  · exact respectsWhere_of_value (fun v => (v.re : ℂ)) fun x _ => value_re_eq x
  · exact respectsWhere_of_value (fun v => (v.im : ℂ)) fun x _ => value_im_eq x
  · intro x x' h
    exact QuadFrac.sign_congr h
  · intro x x' y y' hx hy
    exact QuadFrac.order_congr hx hy

/-- One is stored in many ways, for instance as `√2 / √2`. -/
example : (⟨QuadInt.root, 1⟩ : QuadFrac).same 1 = true ∧ (⟨QuadInt.root, 1⟩ : QuadFrac) ≠ 1 := by decide

end CycloFrac

end CliffordT

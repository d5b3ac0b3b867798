import CliffordT.Proofs.Ring.Parts

/-!
The conjugation that sends `√2` to `-√2`, on fractions.

It is an automorphism, so the value of a conjugate depends on the value of the fraction only, although it cannot be computed
from it by a continuous map. A reduced fraction stays reduced, and reduced fractions with the same value are
equal.
-/

namespace CliffordT

/-- A ring of numbers whose conjugation is an automorphism that changes the sign of `√2`. -/
class ConjugateRing (R : Type) [RootTwoRing R] [NumberRing R] : Prop where
  bullet_add (x y : R) : RootTwoRing.bullet (x + y) = RootTwoRing.bullet x + RootTwoRing.bullet y
  bullet_sub (x y : R) : RootTwoRing.bullet (x - y) = RootTwoRing.bullet x - RootTwoRing.bullet y
  bullet_neg (x : R) : RootTwoRing.bullet (-x) = -RootTwoRing.bullet x
  bullet_mul (x y : R) : RootTwoRing.bullet (x * y) = RootTwoRing.bullet x * RootTwoRing.bullet y
  bullet_timesRoot (x : R) : RootTwoRing.bullet (RootTwoRing.timesRoot x) = -RootTwoRing.timesRoot (RootTwoRing.bullet x)
  bullet_bullet (x : R) : RootTwoRing.bullet (RootTwoRing.bullet x) = x

instance : ConjugateRing QuadInt where
  bullet_add := QuadInt.bullet_add
  bullet_sub := map_sub QuadInt.bulletHom
  bullet_neg := map_neg QuadInt.bulletHom
  bullet_mul := QuadInt.bullet_mul
  bullet_timesRoot x := by
    change x.timesRoot.bullet = -x.bullet.timesRoot
    ext <;> simp [QuadInt.timesRoot]
  bullet_bullet := QuadInt.bullet_bullet

instance : ConjugateRing CycloInt where
  bullet_add := map_add CycloInt.bulletHom
  bullet_sub := map_sub CycloInt.bulletHom
  bullet_neg := map_neg CycloInt.bulletHom
  bullet_mul := CycloInt.bullet_mul
  bullet_timesRoot x := by
    change x.timesRoot.bullet = -x.bullet.timesRoot
    ext <;> simp [CycloInt.timesRoot] <;> ring
  bullet_bullet := CycloInt.bullet_bullet

namespace RootFrac

open Exponent NumberRing

variable {R E : Type} [RootTwoRing R] [Exponent E]

theorem bullet_of_even {e : E} (h : load e % 2 = 0) (n : R) : (⟨n, e⟩ : RootFrac R E).bullet = ⟨RootTwoRing.bullet n, e⟩ := by
  rw [bullet, if_neg (by dsimp only; omega)]

theorem bullet_of_odd {e : E} (h : load e % 2 = 1) (n : R) : (⟨n, e⟩ : RootFrac R E).bullet = ⟨-RootTwoRing.bullet n, e⟩ := by
  rw [bullet, if_pos h]

variable [NumberRing R]

theorem value_bullet (x : RootFrac R E) :
    x.bullet.value = NumberRing.value (RootTwoRing.bullet x.num) / (-sqrtTwo) ^ load x.exp := by
  rw [bullet, value_mk]
  split
  · next h => rw [(Nat.odd_iff.2 h).neg_pow, NumberRing.value_neg, div_neg, neg_div]
  · next h => rw [(Nat.even_iff.2 (by omega)).neg_pow]

variable [ConjugateRing R]

theorem value_bullet_repeat_timesRoot (r : R) (n : ℕ) :
    NumberRing.value (RootTwoRing.bullet (Nat.repeat RootTwoRing.timesRoot n r)) =
      NumberRing.value (RootTwoRing.bullet r) * (-sqrtTwo) ^ n := by
  induction n with
  | zero => simp [Nat.repeat]
  | succ n ih =>
    rw [Nat.repeat, ConjugateRing.bullet_timesRoot, NumberRing.value_neg, value_timesRoot, ih]
    ring

theorem value_bullet_numOver (x : RootFrac R E) {k : ℕ} (h : load x.exp ≤ k) :
    NumberRing.value (RootTwoRing.bullet (x.numOver k)) / (-sqrtTwo) ^ k = x.bullet.value := by
  rw [numOver, value_bullet_repeat_timesRoot, value_bullet, div_eq_div_iff (by simp) (by simp), mul_assoc, ← pow_add,
    Nat.sub_add_cancel h]

@[simp] theorem value_bullet_add (x y : RootFrac R E) : (x + y).bullet.value = x.bullet.value + y.bullet.value := by
  rw [← value_bullet_numOver x (le_max_left (load x.exp) (load y.exp)),
    ← value_bullet_numOver y (le_max_right (load x.exp) (load y.exp)), ← add_div, ← NumberRing.value_add,
    ← ConjugateRing.bullet_add, value_bullet, exp_add]
  rfl

@[simp] theorem value_bullet_sub (x y : RootFrac R E) : (x - y).bullet.value = x.bullet.value - y.bullet.value := by
  rw [← value_bullet_numOver x (le_max_left (load x.exp) (load y.exp)),
    ← value_bullet_numOver y (le_max_right (load x.exp) (load y.exp)), ← sub_div, ← NumberRing.value_sub,
    ← ConjugateRing.bullet_sub, value_bullet, exp_sub]
  rfl

@[simp] theorem value_bullet_neg (x : RootFrac R E) : (-x).bullet.value = -x.bullet.value := by
  rw [value_bullet, value_bullet, ← neg_div, ← NumberRing.value_neg, ← ConjugateRing.bullet_neg]
  rfl

/-- Conjugation respects products, also where the sum of the exponents cannot be stored: what is stored has the same parity. -/
theorem bullet_mul (x y : RootFrac R E) : (x * y).bullet = x.bullet * y.bullet := by
  obtain ⟨m, e⟩ := x
  obtain ⟨n, f⟩ := y
  have hmul (a b : R) (e f : E) : (⟨a, e⟩ : RootFrac R E) * ⟨b, f⟩ = ⟨a * b, store (load e + load f)⟩ := rfl
  have hneg (a b : R) : -a * b = -(a * b) ∧ a * -b = -(a * b) ∧ -a * -b = a * b := by
    refine ⟨?_, ?_, ?_⟩ <;> apply value_injective <;> simp [NumberRing.value_mul, NumberRing.value_neg]
  have hparity := load_store_mod_two (E := E) (load e + load f)
  rw [hmul]
  rcases Nat.mod_two_eq_zero_or_one (load e) with he | he <;> rcases Nat.mod_two_eq_zero_or_one (load f) with hf | hf
  · rw [bullet_of_even (by omega), bullet_of_even he, bullet_of_even hf, hmul, ConjugateRing.bullet_mul]
  · rw [bullet_of_odd (by omega), bullet_of_even he, bullet_of_odd hf, hmul, ConjugateRing.bullet_mul, (hneg _ _).2.1]
  · rw [bullet_of_odd (by omega), bullet_of_odd he, bullet_of_even hf, hmul, ConjugateRing.bullet_mul, (hneg _ _).1]
  · rw [bullet_of_even (by omega), bullet_of_odd he, bullet_of_odd hf, hmul, ConjugateRing.bullet_mul, (hneg _ _).2.2]

omit [NumberRing R] [ConjugateRing R] in
@[simp] theorem exp_bullet (x : RootFrac R E) : x.bullet.exp = x.exp := rfl

@[simp] theorem value_bullet_mul (x y : RootFrac R E) [Stores E (load x.exp + load y.exp)] :
    (x * y).bullet.value = x.bullet.value * y.bullet.value := by
  have : Stores E (load x.bullet.exp + load y.bullet.exp) := by rwa [exp_bullet, exp_bullet]
  rw [bullet_mul, value_mul]

/-- Conjugates of equal numbers are equal. -/
theorem value_bullet_congr {x y : RootFrac R E} (h : x.value = y.value) : x.bullet.value = y.bullet.value := by
  have hnum : Nat.repeat RootTwoRing.timesRoot (load y.exp) x.num = Nat.repeat RootTwoRing.timesRoot (load x.exp) y.num := by
    apply value_injective
    rwa [value_repeat_timesRoot, value_repeat_timesRoot, ← div_eq_div_iff (by simp) (by simp)]
  have hbullet := congrArg (fun r => NumberRing.value (RootTwoRing.bullet r)) hnum
  simp only [value_bullet_repeat_timesRoot] at hbullet
  rwa [value_bullet, value_bullet, div_eq_div_iff (by simp) (by simp)]

theorem value_bullet_bullet (x : RootFrac R E) : x.bullet.bullet.value = x.value := by
  rw [value_bullet, bullet, value]
  dsimp only
  split
  · next h =>
    rw [(Nat.odd_iff.2 h).neg_pow, ConjugateRing.bullet_neg, NumberRing.value_neg, ConjugateRing.bullet_bullet, div_neg,
      neg_div, neg_neg]
  · next h => rw [(Nat.even_iff.2 (by omega)).neg_pow, ConjugateRing.bullet_bullet]

omit [ConjugateRing R] in
theorem eq_of_value {x y : RootFrac R E} (hexp : x.exp = y.exp) (hvalue : x.value = y.value) : x = y := by
  obtain ⟨r, k⟩ := x
  obtain ⟨s, l⟩ := y
  obtain rfl : k = l := hexp
  rw [value_mk, value_mk, div_left_inj' (by simp)] at hvalue
  rw [value_injective hvalue]

variable [DecidableEq R]

@[simp] theorem value_bullet_reduce (x : RootFrac R E) : x.reduce.bullet.value = x.bullet.value :=
  value_bullet_congr (value_reduce x)

omit [ConjugateRing R] in
/-- There is one reduced fraction for every number. -/
theorem reduce_congr {x y : RootFrac R E} (h : x.value = y.value) : x.reduce = y.reduce :=
  eq_of_value (reduce_exp_congr h) (by rw [value_reduce, value_reduce, h])

omit [ConjugateRing R] in
@[simp] theorem reduce_reduce (x : RootFrac R E) : x.reduce.reduce = x.reduce := reduce_congr (value_reduce x)

omit [ConjugateRing R] in
theorem reduce_eq_iff {x y : RootFrac R E} : x.reduce = y.reduce ↔ x.value = y.value := by
  constructor
  · intro h
    rw [← value_reduce x, h, value_reduce]
  · exact reduce_congr

/-- The conjugate of a reduced fraction is reduced. -/
theorem reduce_bullet {x : RootFrac R E} (h : x.reduce = x) : x.bullet.reduce = x.bullet := by
  -- conjugation does not lower the exponent, and doing it twice does not either
  have hle (y : RootFrac R E) : load y.bullet.reduce.exp ≤ load y.reduce.exp := by
    obtain ⟨r, hr⟩ := (reduce_exp_le_iff y _).1 le_rfl
    have hvalue : y.value = (⟨r, y.reduce.exp⟩ : RootFrac R E).value := by
      rw [value_mk r, ← hr, mul_div_cancel_right₀ y.value (by simp)]
    rw [reduce_exp_congr (value_bullet_congr hvalue), reduce_exp_le_iff]
    refine ⟨(⟨r, y.reduce.exp⟩ : RootFrac R E).bullet.num, ?_⟩
    rw [value, bullet, div_mul_cancel₀ _ (by simp)]
  have hexp : x.bullet.reduce.exp = x.bullet.exp := by
    refine load_injective (le_antisymm ?_ ?_)
    · exact (hle x).trans_eq (by rw [h]; rfl)
    · have := hle x.bullet
      rwa [reduce_exp_congr (value_bullet_bullet x), h] at this
  exact eq_of_value hexp (value_reduce _)

theorem bullet_reduce (x : RootFrac R E) : x.reduce.bullet = x.bullet.reduce := by
  rw [← reduce_bullet (reduce_reduce x)]
  exact reduce_congr (value_bullet_reduce x)

end RootFrac

namespace CycloFrac

open Exponent

variable {E : Type} [Exponent E]

/-- The denominator of a coordinate has one more factor `√2`, whose sign makes up for that of the numerator. -/
theorem coordinate_bullet (part : CycloInt → QuadInt) (hneg : ∀ n, part (-n) = -part n)
    (hbullet : ∀ n, part n.bullet = -(part n).bullet) (x : CycloFrac E) :
    (⟨part x.bullet.num, next x.exp⟩ : QuadFrac E) = RootFrac.bullet ⟨part x.num, next x.exp⟩ := by
  obtain ⟨n, e⟩ := x
  have hparity : load (next e) % 2 = (load e + 1) % 2 := load_store_mod_two _
  rcases Nat.mod_two_eq_zero_or_one (load e) with h | h
  · rw [RootFrac.bullet_of_even h, RootFrac.bullet_of_odd (by dsimp only; omega)]
    exact congrArg (RootFrac.mk · (next e)) (hbullet n)
  · rw [RootFrac.bullet_of_odd h, RootFrac.bullet_of_even (by dsimp only; omega)]
    refine congrArg (RootFrac.mk · (next e)) ((hneg _).trans ?_)
    rw [← neg_neg (RootTwoRing.bullet (part n))]
    exact congrArg (-·) (hbullet n)

theorem re_bullet (x : CycloFrac E) : re x.bullet = (re x).bullet := by
  refine coordinate_bullet (fun n => ⟨n.x₁ - n.x₃, n.x₀⟩) (fun n => ?_) (fun n => ?_) x
  · ext
    · simp only [CycloInt.neg_x₁, CycloInt.neg_x₃, QuadInt.neg_a]
      ring
    · simp
  · ext
    · simp only [CycloInt.bullet_x₁, CycloInt.bullet_x₃, QuadInt.neg_a, QuadInt.bullet_a]
      ring
    · simp

theorem im_bullet (x : CycloFrac E) : im x.bullet = (im x).bullet := by
  refine coordinate_bullet (fun n => ⟨n.x₁ + n.x₃, n.x₂⟩) (fun n => ?_) (fun n => ?_) x
  · ext
    · simp only [CycloInt.neg_x₁, CycloInt.neg_x₃, QuadInt.neg_a]
      ring
    · simp
  · ext
    · simp only [CycloInt.bullet_x₁, CycloInt.bullet_x₃, QuadInt.neg_a, QuadInt.bullet_a]
      ring
    · simp

theorem ofReal_bullet (x : QuadFrac E) : (ofReal x).bullet = ofReal x.bullet := by
  obtain ⟨n, e⟩ := x
  have hquad : RootTwoRing.bullet (CycloInt.ofQuad n) = CycloInt.ofQuad n.bullet := CycloInt.bullet_ofQuad n
  rcases Nat.mod_two_eq_zero_or_one (load e) with h | h
  · rw [ofReal, RootFrac.bullet_of_even h, RootFrac.bullet_of_even h, hquad, ofReal]
    rfl
  · rw [ofReal, RootFrac.bullet_of_odd h, RootFrac.bullet_of_odd h, hquad, ofReal, RootFrac.mk.injEq]
    refine ⟨?_, rfl⟩
    ext <;> simp [RootTwoRing.bullet]

end CycloFrac

end CliffordT

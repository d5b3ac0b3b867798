import CliffordT.Proofs.Plane.Steps

/-!
What a step does to the off-diagonal entries of two forms of determinant one.

A form `[[s/w, b], [b, s w]]` has `s² = b² + 1`, so `s` is hardly larger than `|b|`. Every step but the reflections turns `b` into
`q s - p b` up to sign, with numbers `p` and `q` close to each other, and the sign of `b` is such that most of it cancels.
What remains comes to at most nine tenths of the skew, as the skew is more than fifteen.
-/

namespace CliffordT

open ExactReal
open scoped ExactStep

/-! ### Powers of `λ` -/

namespace ExactReal

theorem root_bounds : (1414 : ℝ) / 1000 ≤ √2 ∧ √2 ≤ 1415 / 1000 :=
  ⟨Real.le_sqrt_of_sq_le (by norm_num), Real.sqrt_le_iff.2 ⟨by norm_num, by norm_num⟩⟩

theorem root_sq : √2 ^ 2 = 2 := Real.sq_sqrt zero_le_two

theorem lambda_pos : 0 < lambda := by
  rw [lambda_eq]
  positivity

theorem one_le_lambda : 1 ≤ lambda := by
  rw [lambda_eq]
  linarith [Real.sqrt_nonneg 2]

theorem inv_lambda : lambda⁻¹ = √2 - 1 := by
  refine inv_eq_of_mul_eq_one_right ?_
  rw [lambda_eq]
  linear_combination root_sq

theorem rpow_tenths_pow (n : ℕ) : (lambda ^ ((n : ℝ) / 10)) ^ 10 = lambda ^ n := by
  rw [← Real.rpow_natCast, ← Real.rpow_mul lambda_pos.le, Nat.cast_ofNat, div_mul_cancel₀ _ (by norm_num), Real.rpow_natCast]

theorem rpow_tenths_le {n : ℕ} {c : ℝ} (hc : 0 ≤ c) (h : lambda ^ n ≤ c ^ 10) : lambda ^ ((n : ℝ) / 10) ≤ c := by
  rw [← rpow_tenths_pow] at h
  exact (pow_le_pow_iff_left₀ (Real.rpow_nonneg lambda_pos.le _) hc (by norm_num)).1 h

theorem le_rpow_tenths {n : ℕ} {c : ℝ} (hc : 0 ≤ c) (h : c ^ 10 ≤ lambda ^ n) : c ≤ lambda ^ ((n : ℝ) / 10) := by
  rw [← rpow_tenths_pow] at h
  exact (pow_le_pow_iff_left₀ hc (Real.rpow_nonneg lambda_pos.le _) (by norm_num)).1 h

theorem lambda_sq : lambda ^ 2 = 3 + 2 * √2 := by
  rw [lambda_eq]
  linear_combination root_sq

theorem lambda_cube : lambda ^ 3 = 7 + 5 * √2 := by
  rw [pow_succ, lambda_sq, lambda_eq]
  linear_combination 2 * root_sq

theorem lambda_eighth : lambda ^ 8 = 577 + 408 * √2 := by
  rw [show lambda ^ 8 = ((lambda ^ 2) ^ 2) ^ 2 by ring, lambda_sq]
  linear_combination (16 * √2 * √2 + 96 * √2 + 248) * root_sq

theorem rpow_bounds : lambda ^ (8 / 10 : ℝ) ≤ 21 / 10 ∧ lambda ^ (3 / 10 : ℝ) ≤ 131 / 100 ∧
    13 / 10 ≤ lambda ^ (3 / 10 : ℝ) ∧ lambda ^ (2 / 10 : ℝ) ≤ 12 / 10 := by
  obtain ⟨hlow, hhigh⟩ := root_bounds
  refine ⟨?_, ?_, ?_, ?_⟩
  · exact rpow_tenths_le (n := 8) (by norm_num) (by rw [lambda_eighth]; linarith)
  · exact rpow_tenths_le (n := 3) (by norm_num) (by rw [lambda_cube]; linarith)
  · exact le_rpow_tenths (n := 3) (by norm_num) (by rw [lambda_cube]; linarith)
  · exact rpow_tenths_le (n := 2) (by norm_num) (by rw [lambda_sq]; linarith)

theorem rpow_le_rpow {x y : ℝ} (h : x ≤ y) : lambda ^ x ≤ lambda ^ y := Real.rpow_le_rpow_of_exponent_le one_le_lambda h

theorem rpow_pos (x : ℝ) : 0 < lambda ^ x := Real.rpow_pos_of_pos lambda_pos x

theorem rpow_add_intCast (x : ℝ) (k : ℤ) : lambda ^ (x + k) = lambda ^ x * lambda ^ k := by
  rw [Real.rpow_add lambda_pos, Real.rpow_intCast]

end ExactReal

/-! ### The shapes of forms of determinant one -/

namespace Ellipse

variable {e : Ellipse ℝ}

/-- A positive definite form of determinant one. -/
structure IsUnimodular (e : Ellipse ℝ) : Prop where
  /-- The form is positive definite. -/
  definite : e.isDegenerate = false
  /-- The determinant is one. -/
  det : e.det = 1

theorem IsUnimodular.xx_pos (he : e.IsUnimodular) : 0 < e.xx := (isDegenerate_eq_false_iff.1 he.definite).1

theorem IsUnimodular.yy_pos (he : e.IsUnimodular) : 0 < e.yy := (isDegenerate_eq_false_iff.1 he.definite).2.1

theorem IsUnimodular.xx_mul_yy (he : e.IsUnimodular) : e.xx * e.yy = e.xy ^ 2 + 1 := by
  have hdet := he.det
  rw [det_real] at hdet
  linarith

/-- The forms that a reduction works on have determinant one. -/
theorem exists_normalized (he : e.isDegenerate = false) : ∃ n, e.normalized = .ok n ∧ n.IsUnimodular := by
  obtain ⟨hxx, hyy, hdet⟩ := isDegenerate_eq_false_iff.1 he
  have hroot : 0 < √e.det := Real.sqrt_pos.2 hdet
  have hsq : √e.det ^ 2 = e.xx * e.yy - e.xy ^ 2 := by rw [Real.sq_sqrt hdet.le, det_real]
  have hone : e.xx / √e.det * (e.yy / √e.det) - (e.xy / √e.det) ^ 2 = 1 := by
    field_simp
    linarith
  refine ⟨⟨e.xx / √e.det, e.xy / √e.det, e.yy / √e.det, e.centre⟩, ?_, ?_⟩
  · rw [normalized]
    rw [show Scalar.sqrt e.det = √e.det from rfl, Scalar.quotient_real _ hroot.ne', Scalar.quotient_real _ hroot.ne',
      Scalar.quotient_real _ hroot.ne']
    rfl
  · have hdet' : (⟨e.xx / √e.det, e.xy / √e.det, e.yy / √e.det, e.centre⟩ : Ellipse ℝ).det = 1 := by
      rw [det_real]
      exact hone
    refine ⟨isDegenerate_eq_false_iff.2 ⟨div_pos hxx hroot, div_pos hyy hroot, ?_⟩, hdet'⟩
    rw [hdet']
    exact one_pos

/-- The geometric mean of the diagonal entries. -/
noncomputable def size (e : Ellipse ℝ) : ℝ := √(e.xy ^ 2 + 1)

theorem size_pos (e : Ellipse ℝ) : 0 < e.size := Real.sqrt_pos.2 (by positivity)

theorem size_sq (e : Ellipse ℝ) : e.size ^ 2 = e.xy ^ 2 + 1 := Real.sq_sqrt (by positivity)

end Ellipse

namespace Shape

open Ellipse

variable {e : Ellipse ℝ}

/-- The shape of an ellipse, without rounding. -/
noncomputable def exact (e : Ellipse ℝ) : Shape ℝ where
  b := e.xy
  z := (Real.logb (2 : ℕ) e.yy - Real.logb (2 : ℕ) e.xx) / ((2 : ℕ) * Real.logb (2 : ℕ) lambda)
  sign := Scalar.sign e.xy

theorem exact_signed (e : Ellipse ℝ) : (exact e).Signed := rfl

theorem exact_z (e : Ellipse ℝ) : (exact e).z = (Real.log e.yy - Real.log e.xx) / (2 * Real.log lambda) := by
  have htwo : Real.log 2 ≠ 0 := (Real.log_pos one_lt_two).ne'
  rw [exact, Nat.cast_ofNat, Real.logb, Real.logb, Real.logb]
  field_simp

theorem log_lambda_pos : 0 < Real.log lambda := by
  refine Real.log_pos ?_
  rw [lambda_eq]
  linarith [Real.one_lt_sqrt_two]

/-- The bias is read off the diagonal. -/
theorem diagonal (he : e.IsUnimodular) :
    e.xx = e.size * (lambda ^ (exact e).z)⁻¹ ∧ e.yy = e.size * lambda ^ (exact e).z := by
  have hpos := rpow_pos (exact e).z
  have hratio : (lambda ^ (exact e).z) ^ 2 = e.yy / e.xx := by
    rw [exact_z, Real.rpow_def_of_pos lambda_pos, ← Real.exp_nat_mul, Nat.cast_ofNat]
    rw [show 2 * (Real.log lambda * ((Real.log e.yy - Real.log e.xx) / (2 * Real.log lambda))) =
      Real.log e.yy - Real.log e.xx by field_simp [log_lambda_pos.ne'], Real.exp_sub, Real.exp_log he.yy_pos,
      Real.exp_log he.xx_pos]
  have hyy : e.yy = e.size * lambda ^ (exact e).z := by
    refine (pow_left_inj₀ he.yy_pos.le (mul_pos e.size_pos hpos).le two_ne_zero).1 ?_
    have hxx := he.xx_pos.ne'
    rw [mul_pow, hratio, size_sq, ← he.xx_mul_yy]
    field_simp
  refine ⟨?_, hyy⟩
  refine mul_right_cancel₀ he.yy_pos.ne' ?_
  rw [he.xx_mul_yy, ← size_sq, hyy]
  field_simp

end Shape

/-! ### The action of a shifted step -/

namespace QuadFrac

theorem toReal_scale (x : QuadFrac ℕ) (r : QuadInt) : QuadFrac.toReal (x.scale r) = x.toReal * QuadInt.realHom r := by
  rw [toReal_eq, toReal_eq, RootFrac.scale, map_mul]
  ring

theorem bullet_scale (x : QuadFrac ℕ) (r : QuadInt) : (x.scale r).bullet = x.bullet.scale r.bullet := by
  have hmul : RootTwoRing.bullet (x.num * r) = RootTwoRing.bullet x.num * r.bullet := QuadInt.bullet_mul x.num r
  rw [RootFrac.bullet, RootFrac.bullet, RootFrac.scale, RootFrac.scale, hmul, RootFrac.mk.injEq]
  dsimp only
  split
  · exact ⟨(neg_mul _ _).symm, rfl⟩
  · exact ⟨rfl, rfl⟩

end QuadFrac

namespace Square

/-- The map between planes with stretched axes. -/
noncomputable def stretched (m : Square ℝ) (x : ℝ) : Square ℝ := ⟨m.m₀₀, m.m₀₁ * x, m.m₁₀ * x⁻¹, m.m₁₁⟩

/-- The off-diagonal entry of the image of the form `[[s/w, b], [b, s w]]`. -/
noncomputable def mixed (m : Square ℝ) (s b w : ℝ) : ℝ :=
  m.m₀₀ * m.m₀₁ * (s * w⁻¹) + (m.m₀₀ * m.m₁₁ + m.m₀₁ * m.m₁₀) * b + m.m₁₀ * m.m₁₁ * (s * w)

end Square

namespace PlaneOp

theorem eval_shifted (g : PlaneOp ℕ) (k : ℤ) : ((g.shifted k).eval : Square ℝ) = Square.stretched g.eval (lambda ^ k) := by
  simp only [eval_real, shifted, Square.map, Square.stretched, QuadFrac.toReal_scale, QuadInt.realHom_lambdaPow, zpow_neg]
  rfl

theorem eval_bullet_shifted (g : PlaneOp ℕ) (k : ℤ) :
    ((g.shifted k).bullet.eval : Square ℝ) = Square.stretched g.bullet.eval (Shape.parity k * (lambda ^ k)⁻¹) := by
  have hconj : (1 - √2) = -lambda⁻¹ := by
    rw [inv_lambda]
    ring
  have hpow : (1 - √2) ^ k = Shape.parity k * (lambda ^ k)⁻¹ := by
    rw [hconj, Shape.parity_eq_zpow, neg_eq_neg_one_mul, mul_zpow, inv_zpow]
  simp only [eval_real, bullet, shifted, Square.map, Square.stretched, QuadFrac.bullet_scale, QuadFrac.toReal_scale,
    QuadInt.realHom_bullet_lambdaPow, zpow_neg, hpow]

end PlaneOp

namespace Ellipse

variable {e : Ellipse ℝ}

theorem xy_pullBack_stretched (e : Ellipse ℝ) (m gInv : Square ℝ) {x : ℝ} (hx : x ≠ 0) :
    (e.pullBack (m.stretched x) gInv).xy =
      m.m₀₀ * m.m₀₁ * (x * e.xx) + (m.m₀₀ * m.m₁₁ + m.m₀₁ * m.m₁₀) * e.xy + m.m₁₀ * m.m₁₁ * (x⁻¹ * e.yy) := by
  simp only [pullBack, Square.stretched]
  field_simp
  ring

/-- The first off-diagonal entry after a shifted step. -/
theorem xy_pullBack_shifted (he : e.IsUnimodular) (g : PlaneOp ℕ) (k : ℤ) (gInv : Square ℝ) :
    (e.pullBack (g.shifted k).eval gInv).xy = Square.mixed g.eval e.size e.xy (lambda ^ ((Shape.exact e).z - k)) := by
  have hpow := zpow_pos lambda_pos k
  have hz : lambda ^ (Shape.exact e).z = lambda ^ ((Shape.exact e).z - k) * lambda ^ k := by
    rw [← rpow_add_intCast, sub_add_cancel]
  obtain ⟨hxx, hyy⟩ := Shape.diagonal he
  rw [PlaneOp.eval_shifted, xy_pullBack_stretched _ _ _ hpow.ne', hxx, hyy, hz, Square.mixed]
  have hw := (rpow_pos ((Shape.exact e).z - k)).ne'
  congr 2
  · field_simp
  · field_simp

/-- The second off-diagonal entry after a shifted step. -/
theorem xy_pullBack_bullet_shifted (he : e.IsUnimodular) (g : PlaneOp ℕ) (k : ℤ) (gInv : Square ℝ) :
    (e.pullBack (g.shifted k).bullet.eval gInv).xy = Shape.parity k *
      Square.mixed g.bullet.eval e.size (Shape.parity k * e.xy) (lambda ^ ((Shape.exact e).z + k)) := by
  have hpow := zpow_pos lambda_pos k
  have hsign := Shape.parity_mul_self k
  have hinv : (Shape.parity k)⁻¹ = Shape.parity k := inv_eq_of_mul_eq_one_right hsign
  have hz := rpow_add_intCast (Shape.exact e).z k
  obtain ⟨hxx, hyy⟩ := Shape.diagonal he
  have hne : Shape.parity k * (lambda ^ k)⁻¹ ≠ 0 := mul_ne_zero (left_ne_zero_of_mul_eq_one hsign) (inv_ne_zero hpow.ne')
  rw [PlaneOp.eval_bullet_shifted, xy_pullBack_stretched _ _ _ hne, hxx, hyy, hz, Square.mixed, mul_inv, mul_inv, inv_inv,
    hinv]
  linear_combination -(Square.m₀₀ g.bullet.eval * Square.m₁₁ g.bullet.eval + Square.m₀₁ g.bullet.eval * Square.m₁₀ g.bullet.eval) * e.xy * hsign

end Ellipse

/-! ### The entries of the steps -/

namespace QuadFrac

theorem toReal_mk (a b : ℤ) (e : ℕ) : QuadFrac.toReal ⟨⟨a, b⟩, e⟩ = (a + b * √2) / √2 ^ e := by
  rw [toReal_eq, QuadInt.realHom_apply, Exponent.load_nat]

theorem toReal_bullet_mk (a b : ℤ) (e : ℕ) :
    QuadFrac.toReal (RootFrac.bullet ⟨⟨a, b⟩, e⟩) = (a - b * √2) / (-√2) ^ e := by
  have hbullet : QuadInt.realHom (RootTwoRing.bullet (⟨a, b⟩ : QuadInt)) = a - b * √2 := QuadInt.realHom_bullet ⟨a, b⟩
  rw [toReal_eq, RootFrac.bullet]
  simp only [Exponent.load_nat]
  split
  · next h => rw [map_neg, hbullet, (Nat.odd_iff.2 h).neg_pow, div_neg, neg_div]
  · next h => rw [hbullet, (Nat.even_iff.2 (by omega)).neg_pow]

end QuadFrac

namespace Elementary

open PlaneOp

variable (s b w : ℝ)

theorem mixed_eval (m₀₀ m₀₁ m₁₀ m₁₁ : QuadFrac ℕ) : Square.mixed (eval ⟨m₀₀, m₀₁, m₁₀, m₁₁⟩) s b w =
    m₀₀.toReal * m₀₁.toReal * (s * w⁻¹) + (m₀₀.toReal * m₁₁.toReal + m₀₁.toReal * m₁₀.toReal) * b +
      m₁₀.toReal * m₁₁.toReal * (s * w) := by
  rw [eval_real]
  rfl

theorem mixed_R : Square.mixed (R.op : PlaneOp ℕ).eval s b w = (w - w⁻¹) / 2 * s ∧
    Square.mixed (PlaneOp.bullet (R.op : PlaneOp ℕ)).eval s b w = (w - w⁻¹) / 2 * s := by
  rw [op, PlaneOp.bullet, Square.map, mixed_eval, mixed_eval]
  simp only [Exponent.store_nat, QuadFrac.toReal_mk, QuadFrac.toReal_bullet_mk]
  generalize w⁻¹ = v
  push_cast
  constructor
  all_goals
    field_simp
    rw [root_sq]
    ring

theorem mixed_K : Square.mixed (K.op : PlaneOp ℕ).eval s b w = (lambda * w + lambda⁻¹ * w⁻¹) / 2 * s - √2 * b ∧
    Square.mixed (PlaneOp.bullet (K.op : PlaneOp ℕ)).eval s b w = -((lambda⁻¹ * w + lambda * w⁻¹) / 2 * s - √2 * b) := by
  rw [op, PlaneOp.bullet, Square.map, mixed_eval, mixed_eval, inv_lambda, lambda_eq]
  simp only [Exponent.store_nat, QuadFrac.toReal_mk, QuadFrac.toReal_bullet_mk]
  generalize w⁻¹ = v
  push_cast
  constructor
  all_goals
    field_simp
    rw [root_sq]
    ring

theorem mixed_KBullet : Square.mixed (KBullet.op : PlaneOp ℕ).eval s b w = -((lambda⁻¹ * w + lambda * w⁻¹) / 2 * s - √2 * b) ∧
    Square.mixed (PlaneOp.bullet (KBullet.op : PlaneOp ℕ)).eval s b w = (lambda * w + lambda⁻¹ * w⁻¹) / 2 * s - √2 * b := by
  rw [show (KBullet.op : PlaneOp ℕ) = PlaneOp.bullet K.op from rfl,
    show PlaneOp.bullet (PlaneOp.bullet K.op) = (K.op : PlaneOp ℕ) from rfl]
  exact (mixed_K s b w).symm

theorem mixed_A (n : ℤ) : Square.mixed ((A n).op : PlaneOp ℕ).eval s b w = -(2 * n * w⁻¹ * s - 1 * b) ∧
    Square.mixed (PlaneOp.bullet ((A n).op : PlaneOp ℕ)).eval s b w = -(2 * n * w⁻¹ * s - 1 * b) := by
  rw [op, PlaneOp.bullet, Square.map, mixed_eval, mixed_eval]
  simp only [RootFrac.ofRing, QuadFrac.toReal_mk, QuadFrac.toReal_bullet_mk, Exponent.zero_nat, QuadFrac.bullet_zero, QuadFrac.bullet_one, QuadFrac.toReal_zero,
    QuadFrac.toReal_one]
  push_cast
  constructor <;> ring

theorem mixed_B (n : ℤ) : Square.mixed ((B n).op : PlaneOp ℕ).eval s b w = √2 * n * w⁻¹ * s - 1 * -b ∧
    Square.mixed (PlaneOp.bullet ((B n).op : PlaneOp ℕ)).eval s b w = -(√2 * n * w⁻¹ * s - 1 * b) := by
  rw [op, PlaneOp.bullet, Square.map, mixed_eval, mixed_eval]
  simp only [RootFrac.ofRing, QuadFrac.toReal_mk, QuadFrac.toReal_bullet_mk, Exponent.zero_nat, QuadFrac.bullet_zero, QuadFrac.bullet_one, QuadFrac.toReal_zero,
    QuadFrac.toReal_one]
  push_cast
  constructor <;> ring

/-- The steps that keep the skew. -/
def IsReflection (h : Elementary) : Prop := h = X ∨ h = Z

instance decidableIsReflection : DecidablePred IsReflection := fun h => inferInstanceAs (Decidable (h = X ∨ h = Z))

theorem eval_X : ((X.op : PlaneOp ℕ).eval : Square ℝ) = ⟨0, 1, 1, 0⟩ ∧
    ((PlaneOp.bullet (X.op : PlaneOp ℕ)).eval : Square ℝ) = ⟨0, 1, 1, 0⟩ := by
  rw [op, PlaneOp.bullet, eval_real, eval_real]
  simp only [Square.map, QuadFrac.bullet_zero, QuadFrac.bullet_one, QuadFrac.toReal_zero, QuadFrac.toReal_one, and_self]

theorem eval_Z : ((Z.op : PlaneOp ℕ).eval : Square ℝ) = ⟨1, 0, 0, -1⟩ ∧
    ((PlaneOp.bullet (Z.op : PlaneOp ℕ)).eval : Square ℝ) = ⟨1, 0, 0, -1⟩ := by
  rw [op, PlaneOp.bullet, eval_real, eval_real]
  simp only [Square.map, QuadFrac.bullet_zero, QuadFrac.bullet_one, QuadFrac.toReal_neg, QuadFrac.toReal_zero,
    QuadFrac.toReal_one, show RootFrac.bullet (-1 : QuadFrac ℕ) = -1 from rfl, and_self]

end Elementary

/-! ### The inequalities -/

namespace Shape

variable {b beta z zeta s t p q m r : ℝ}

/-- The off-diagonal entry `q s - p b` is small if `p` and `q` are close to each other, as `b` and `s` are. -/
theorem sq_sub_le (hs : 0 ≤ s) (hsq : s ^ 2 = b ^ 2 + 1) (hb : 0 ≤ b) (hp : 0 ≤ p) (hq : 0 ≤ q) (hm : |q - p| ≤ m)
    (hr : q ≤ r) : (q * s - p * b) ^ 2 ≤ m ^ 2 * b ^ 2 + r ^ 2 := by
  have hle : b ≤ s := (pow_le_pow_iff_left₀ hb hs two_ne_zero).1 (by linarith)
  have hcross : 0 ≤ p * q * b * (s - b) := mul_nonneg (by positivity) (by linarith)
  have hclose : (q - p) ^ 2 ≤ m ^ 2 := sq_le_sq.2 (hm.trans (le_abs_self m))
  calc (q * s - p * b) ^ 2
      = (q - p) ^ 2 * b ^ 2 + q ^ 2 - 2 * (p * q * b * (s - b)) := by linear_combination q ^ 2 * hsq
    _ ≤ (q - p) ^ 2 * b ^ 2 + q ^ 2 := by linarith
    _ ≤ m ^ 2 * b ^ 2 + r ^ 2 := by gcongr

theorem skew_le {x y : ℝ} (hx : x ^ 2 ≤ m ^ 2 * b ^ 2 + r ^ 2) (hy : y ^ 2 ≤ m ^ 2 * beta ^ 2 + r ^ 2)
    (hmr : m ^ 2 + 2 * r ^ 2 / 15 ≤ 9 / 10) (hskew : 15 < b ^ 2 + beta ^ 2) :
    x ^ 2 + y ^ 2 ≤ 9 / 10 * (b ^ 2 + beta ^ 2) := by
  have hconst : 2 * r ^ 2 ≤ 2 * r ^ 2 / 15 * (b ^ 2 + beta ^ 2) := by
    have hr := mul_le_mul_of_nonneg_left hskew.le (by positivity : 0 ≤ 2 * r ^ 2 / 15)
    linarith
  calc x ^ 2 + y ^ 2
      ≤ m ^ 2 * (b ^ 2 + beta ^ 2) + 2 * r ^ 2 := by linarith
    _ ≤ (m ^ 2 + 2 * r ^ 2 / 15) * (b ^ 2 + beta ^ 2) := by linarith
    _ ≤ 9 / 10 * (b ^ 2 + beta ^ 2) := mul_le_mul_of_nonneg_right hmr (by positivity)

/-- The hyperbolic sine of a bias of at most eight tenths. -/
theorem abs_sinh_le (hz : |z| ≤ 8 / 10) : |(lambda ^ z - (lambda ^ z)⁻¹) / 2| ≤ 82 / 100 := by
  have hbound {x : ℝ} (hx : x ≤ 8 / 10) : (lambda ^ x - (lambda ^ x)⁻¹) / 2 ≤ 82 / 100 := by
    have hle : lambda ^ x ≤ 21 / 10 := (rpow_le_rpow hx).trans rpow_bounds.1
    have hinv := inv_anti₀ (rpow_pos x) hle
    norm_num at hinv
    linarith
  obtain ⟨hlow, hhigh⟩ := abs_le.1 hz
  rw [abs_le]
  refine ⟨?_, hbound hhigh⟩
  have h := hbound (x := -z) (by linarith)
  rw [Real.rpow_neg lambda_pos.le, inv_inv] at h
  linarith

theorem rpow_mem (hz : z ∈ Set.Icc (-2 / 10) (3 / 10)) :
    (10 / 12 ≤ lambda ^ z ∧ lambda ^ z ≤ 131 / 100) ∧ 100 / 131 ≤ (lambda ^ z)⁻¹ ∧ (lambda ^ z)⁻¹ ≤ 12 / 10 := by
  have hhigh : lambda ^ z ≤ 131 / 100 := (rpow_le_rpow hz.2).trans rpow_bounds.2.1
  have hlow : (lambda ^ z)⁻¹ ≤ 12 / 10 := by
    rw [← Real.rpow_neg lambda_pos.le]
    exact (rpow_le_rpow (by linarith [hz.1])).trans rpow_bounds.2.2.2
  refine ⟨⟨?_, hhigh⟩, ?_, hlow⟩
  · have h := inv_anti₀ (inv_pos.2 (rpow_pos z)) hlow
    rw [inv_inv] at h
    norm_num at h ⊢
    exact h
  · have h := inv_anti₀ (rpow_pos z) hhigh
    norm_num at h ⊢
    exact h

/-- The hyperbolic cosine of a bias plus one. -/
theorem cosh_add_one_bounds (hz : z ∈ Set.Icc (-2 / 10) (3 / 10)) :
    0 ≤ (lambda * lambda ^ z + lambda⁻¹ * (lambda ^ z)⁻¹) / 2 ∧
      |(lambda * lambda ^ z + lambda⁻¹ * (lambda ^ z)⁻¹) / 2 - √2| ≤ 62 / 100 ∧
      (lambda * lambda ^ z + lambda⁻¹ * (lambda ^ z)⁻¹) / 2 ≤ 184 / 100 := by
  obtain ⟨⟨hlow, hhigh⟩, hilow, hihigh⟩ := rpow_mem hz
  obtain ⟨hroot, hroot'⟩ := root_bounds
  have hpos := rpow_pos z
  have h₁ : lambda * lambda ^ z ≤ 2415 / 1000 * (131 / 100) :=
    mul_le_mul (by rw [lambda_eq]; linarith) hhigh hpos.le (by norm_num)
  have h₂ : 2414 / 1000 * (10 / 12) ≤ lambda * lambda ^ z :=
    mul_le_mul (by rw [lambda_eq]; linarith) hlow (by norm_num) lambda_pos.le
  have h₃ : lambda⁻¹ * (lambda ^ z)⁻¹ ≤ 415 / 1000 * (12 / 10) :=
    mul_le_mul (by rw [inv_lambda]; linarith) hihigh (inv_pos.2 hpos).le (by norm_num)
  have h₄ : 0 ≤ lambda⁻¹ * (lambda ^ z)⁻¹ := mul_nonneg (inv_pos.2 lambda_pos).le (inv_pos.2 hpos).le
  rw [abs_le]
  refine ⟨by linarith, ⟨by linarith, by linarith⟩, by linarith⟩

/-- The hyperbolic cosine of a bias less one. -/
theorem cosh_sub_one_bounds (hz : z ∈ Set.Icc (8 / 10) (13 / 10)) :
    0 ≤ (lambda⁻¹ * lambda ^ z + lambda * (lambda ^ z)⁻¹) / 2 ∧
      |(lambda⁻¹ * lambda ^ z + lambda * (lambda ^ z)⁻¹) / 2 - √2| ≤ 62 / 100 ∧
      (lambda⁻¹ * lambda ^ z + lambda * (lambda ^ z)⁻¹) / 2 ≤ 184 / 100 := by
  obtain ⟨⟨hlow, hhigh⟩, hilow, hihigh⟩ := rpow_mem (z := z - 1) ⟨by linarith [hz.1], by linarith [hz.2]⟩
  obtain ⟨hroot, hroot'⟩ := root_bounds
  have hw : lambda ^ z = lambda * lambda ^ (z - 1) := by
    rw [mul_comm, ← Real.rpow_add_one lambda_pos.ne', sub_add_cancel]
  rw [hw, mul_inv, inv_mul_cancel_left₀ lambda_pos.ne', mul_inv_cancel_left₀ lambda_pos.ne', abs_le]
  refine ⟨by linarith, ⟨by linarith, by linarith⟩, by linarith⟩

/-- The exponent of a shear is such that the entries `κ n / w` for the two forms are both close to one. -/
theorem shear_bounds {kappa size : ℝ} (hkappa : 0 < kappa) (hsize : kappa ≤ 17 / 10 * size) :
    ∃ m r : ℝ, m ^ 2 + 2 * r ^ 2 / 15 ≤ 9 / 10 ∧ ∀ w, size ≤ w → w ≤ lambda * size →
      0 ≤ kappa * (max ⌊size / kappa⌋ 1 : ℤ) * w⁻¹ ∧ |kappa * (max ⌊size / kappa⌋ 1 : ℤ) * w⁻¹ - 1| ≤ m ∧
        kappa * (max ⌊size / kappa⌋ 1 : ℤ) * w⁻¹ ≤ r := by
  have hpos : 0 < size := by linarith
  have hlambda : lambda ≤ 2415 / 1000 := by
    rw [lambda_eq]
    linarith [root_bounds.2]
  -- the quotient is at most its value for the smaller form, and at least that value over `λ`
  have hrange {w : ℝ} (n lo hi : ℝ) (hlo : 0 ≤ lo) (hn : lo * (lambda * size) ≤ n) (hn' : n ≤ hi * size) (hhi : 0 ≤ hi)
      (hw : size ≤ w) (hw' : w ≤ lambda * size) : lo ≤ n * w⁻¹ ∧ n * w⁻¹ ≤ hi := by
    have hwpos := hpos.trans_le hw
    rw [← div_eq_mul_inv, le_div_iff₀ hwpos, div_le_iff₀ hwpos]
    exact ⟨(mul_le_mul_of_nonneg_left hw' hlo).trans hn, hn'.trans (mul_le_mul_of_nonneg_left hw hhi)⟩
  generalize hn : (max ⌊size / kappa⌋ 1 : ℤ) = n
  by_cases hlarge : kappa ≤ size
  · have hfloor : (1 : ℤ) ≤ ⌊size / kappa⌋ := Int.le_floor.2 (by rw [Int.cast_one]; exact (one_le_div hkappa).2 hlarge)
    obtain rfl : ⌊size / kappa⌋ = n := by rw [← hn, max_eq_left hfloor]
    have hup := (le_div_iff₀ hkappa).1 (Int.floor_le (size / kappa))
    have hdown := (div_lt_iff₀ hkappa).1 (Int.lt_floor_add_one (size / kappa))
    have hone : (1 : ℝ) ≤ (⌊size / kappa⌋ : ℝ) := by exact_mod_cast hfloor
    have htwice : size ≤ 2 * (kappa * (⌊size / kappa⌋ : ℝ)) := by
      have := mul_le_mul_of_nonneg_left hone hkappa.le
      linarith
    refine ⟨8 / 10, 1, by norm_num, fun w hw hw' => ?_⟩
    have hscaled := mul_le_mul_of_nonneg_right hlambda hpos.le
    obtain ⟨hlow, hhigh⟩ := hrange (kappa * (⌊size / kappa⌋ : ℝ)) (2 / 10) 1 (by norm_num) (by linarith) (by linarith)
      (by norm_num) hw hw'
    exact ⟨by linarith, abs_le.2 ⟨by linarith, by linarith⟩, hhigh⟩
  · rw [not_le] at hlarge
    have hfloor : ⌊size / kappa⌋ ≤ 1 := 
      (Int.floor_lt.2 (by rw [Int.cast_one]; exact (div_lt_one hkappa).2 hlarge)).le
    obtain rfl : 1 = n := by rw [← hn, max_eq_right hfloor]
    refine ⟨7 / 10, 17 / 10, by norm_num, fun w hw hw' => ?_⟩
    have hscaled := mul_le_mul_of_nonneg_right hlambda hpos.le
    obtain ⟨hlow, hhigh⟩ := hrange (kappa * ((1 : ℤ) : ℝ)) (3 / 10) (17 / 10) (by norm_num)
      (by rw [Int.cast_one]; linarith) (by rw [Int.cast_one]; linarith) (by norm_num) hw hw'
    exact ⟨by linarith, abs_le.2 ⟨by linarith, by linarith⟩, hhigh⟩

open Elementary

/-- The powers of `λ` to the two biases are at most a factor `λ` from that of the smaller one. -/
theorem rpow_min_le (hbias : |zeta - z| ≤ 1) :
    (lambda ^ min z zeta ≤ lambda ^ z ∧ lambda ^ z ≤ lambda * lambda ^ min z zeta) ∧
      lambda ^ min z zeta ≤ lambda ^ zeta ∧ lambda ^ zeta ≤ lambda * lambda ^ min z zeta := by
  obtain ⟨hlow, hhigh⟩ := abs_le.1 hbias
  rw [mul_comm, ← Real.rpow_add_one lambda_pos.ne', min_add]
  exact ⟨⟨rpow_le_rpow (min_le_left _ _), rpow_le_rpow (le_min (by linarith) (by linarith))⟩,
    rpow_le_rpow (min_le_right _ _), rpow_le_rpow (le_min (by linarith) (by linarith))⟩

/-- Every step but the reflections lowers the skew by a tenth. -/
theorem Chosen.skew_le {h : Elementary} (hchosen : Chosen b beta z zeta h) (hreduces : ¬h.IsReflection)
    (hbias : |zeta - z| ≤ 1) (hs : 0 ≤ s) (hsq : s ^ 2 = b ^ 2 + 1) (ht : 0 ≤ t) (htsq : t ^ 2 = beta ^ 2 + 1)
    (hskew : 15 < b ^ 2 + beta ^ 2) :
    Square.mixed (h.op : PlaneOp ℕ).eval s b (lambda ^ z) ^ 2 +
        Square.mixed (PlaneOp.bullet (h.op : PlaneOp ℕ)).eval t beta (lambda ^ zeta) ^ 2 ≤
      9 / 10 * (b ^ 2 + beta ^ 2) := by
  cases hchosen with
  | Z => exact absurd (.inr rfl) hreduces
  | X => exact absurd (.inl rfl) hreduces
  | R hbeta hz hzeta =>
    have hsmall {x s b : ℝ} (hx : |x| ≤ 8 / 10) (hsq : s ^ 2 = b ^ 2 + 1) :
        ((lambda ^ x - (lambda ^ x)⁻¹) / 2 * s) ^ 2 ≤ (82 / 100) ^ 2 * b ^ 2 + (82 / 100) ^ 2 := by
      have hsinh : ((lambda ^ x - (lambda ^ x)⁻¹) / 2) ^ 2 ≤ (82 / 100) ^ 2 := sq_le_sq.2 ((abs_sinh_le hx).trans (le_abs_self _))
      rw [mul_pow, hsq, mul_add, mul_one]
      gcongr
    rw [(mixed_R _ _ _).1, (mixed_R _ _ _).2]
    exact Shape.skew_le (hsmall hz hsq) (hsmall hzeta htsq) (by norm_num) hskew
  | K hbeta hb hz hzeta =>
    obtain ⟨hq, hm, hr⟩ := cosh_add_one_bounds hz
    obtain ⟨hq', hm', hr'⟩ := cosh_sub_one_bounds hzeta
    rw [(mixed_K _ _ _).1, (mixed_K _ _ _).2, neg_sq]
    exact Shape.skew_le (sq_sub_le hs hsq hb (Real.sqrt_nonneg 2) hq hm hr)
      (sq_sub_le ht htsq hbeta (Real.sqrt_nonneg 2) hq' hm' hr') (by norm_num) hskew
  | KBullet hbeta hb hz hzeta =>
    obtain ⟨hq, hm, hr⟩ := cosh_sub_one_bounds hz
    obtain ⟨hq', hm', hr'⟩ := cosh_add_one_bounds hzeta
    rw [(mixed_KBullet _ _ _).1, (mixed_KBullet _ _ _).2, neg_sq]
    exact Shape.skew_le (sq_sub_le hs hsq hb (Real.sqrt_nonneg 2) hq hm hr)
      (sq_sub_le ht htsq hbeta (Real.sqrt_nonneg 2) hq' hm' hr') (by norm_num) hskew
  | A hbeta hb hmin =>
    have hsize : 2 ≤ 17 / 10 * lambda ^ min z zeta := by linarith [rpow_bounds.2.2.1.trans (rpow_le_rpow hmin)]
    obtain ⟨m, r, hmr, hbounds⟩ := shear_bounds two_pos hsize
    obtain ⟨⟨h₁, h₂⟩, h₃, h₄⟩ := rpow_min_le hbias
    obtain ⟨hq, hm, hr⟩ := hbounds _ h₁ h₂
    obtain ⟨hq', hm', hr'⟩ := hbounds _ h₃ h₄
    rw [(mixed_A _ _ _ _).1, (mixed_A _ _ _ _).2, neg_sq, neg_sq]
    exact Shape.skew_le (sq_sub_le hs hsq hb zero_le_one hq hm hr) (sq_sub_le ht htsq hbeta zero_le_one hq' hm' hr') hmr hskew
  | B hbeta hb hmin =>
    have hsize : √2 ≤ 17 / 10 * lambda ^ min z zeta := by
      have hlow : (lambda ^ (2 / 10 : ℝ))⁻¹ ≤ lambda ^ min z zeta := by
        rw [← Real.rpow_neg lambda_pos.le, ← neg_div]
        exact rpow_le_rpow hmin
      have hinv := inv_anti₀ (rpow_pos _) rpow_bounds.2.2.2
      norm_num at hinv hlow
      linarith [root_bounds.2]
    obtain ⟨m, r, hmr, hbounds⟩ := shear_bounds (Real.sqrt_pos.2 two_pos) hsize
    obtain ⟨⟨h₁, h₂⟩, h₃, h₄⟩ := rpow_min_le hbias
    obtain ⟨hq, hm, hr⟩ := hbounds _ h₁ h₂
    obtain ⟨hq', hm', hr'⟩ := hbounds _ h₃ h₄
    have hneg := sq_sub_le (b := -b) hs (by rw [neg_sq, hsq]) (by linarith) zero_le_one hq hm hr
    rw [neg_sq] at hneg
    rw [(mixed_B _ _ _ _).1, (mixed_B _ _ _ _).2, neg_sq (_ - 1 * beta)]
    exact Shape.skew_le hneg (sq_sub_le ht htsq hbeta zero_le_one hq' hm' hr') hmr hskew

end Shape

end CliffordT

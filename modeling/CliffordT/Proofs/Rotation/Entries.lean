import CliffordT.Proofs.Gate.Matrix
import CliffordT.Proofs.Ring.Parts
import CliffordT.Proofs.Working.Drift
import CliffordT.Working.Embedding
import CliffordT.Working.Instances

/-!
The computed entries of a unitary operator are near its entries.

The rational part of `|z|² + |w|² = 1` bounds the coordinates of a numerator by the power of `√2` below the bar, for every
denominator exponent. So nothing cancels when an entry is evaluated, however large its coordinates are.
-/

namespace CliffordT

namespace QuadFrac

theorem eval_near {p : ℕ} (hp : 1 ≤ p) (x : QuadFrac ℕ) :
    Approx.Near 5 ((|(x.num.a : ℝ)| + |(x.num.b : ℝ)| * √2) / √2 ^ x.exp) (x.eval : Approx p) (toReal x) := by
  have hroot : (√2 : ℝ) ≠ 0 := by positivity
  have hnum : Approx.Near 3 (|(x.num.a : ℝ)| + |(x.num.b : ℝ)| * √2) (x.num.eval : Approx p)
      (QuadInt.realHom x.num) := by
    have h := ((Approx.Near.ofInt (p := p) x.num.a).mono (by omega) le_rfl).add hp
      ((Approx.Near.rootTwo hp).scale x.num.b)
    rw [mul_comm √2, mul_comm √2] at h
    exact h
  have hshift := hnum.shift (-((x.exp / 2 : ℕ) : ℤ))
  rw [two_zpow_eq_sqrt_pow, ← div_eq_mul_inv, ← div_eq_mul_inv] at hshift
  rw [QuadFrac.eval, toReal_eq, Exponent.load_nat]
  split
  · next hodd =>
    have h := hshift.mul (Approx.Near.invRootTwo hp)
    have hexp : √2 ^ x.exp = √2 ^ (2 * (x.exp / 2)) * √2 := by
      rw [← pow_succ]
      congr 1
      omega
    have hhalf : (√2 : ℝ) / 2 = (√2)⁻¹ := by
      rw [eq_comm, inv_eq_iff_eq_inv, inv_div]
      field_simp
      norm_num
    rw [hhalf, ← div_eq_mul_inv, ← div_eq_mul_inv, div_div, div_div, ← hexp] at h
    exact h
  · next heven =>
    rw [show 2 * (x.exp / 2) = x.exp by omega] at hshift
    exact hshift.mono (by omega) le_rfl

end QuadFrac

namespace CycloFrac

/-- A fraction none of whose coordinates is larger than its denominator. -/
def Bounded (x : CycloFrac ℕ) : Prop := x.num.absSq.a ≤ 2 ^ x.exp

theorem Bounded.coordinates_le {x : CycloFrac ℕ} (h : Bounded x) : |(x.num.x₀ : ℝ)| ≤ √2 ^ x.exp ∧
    |(x.num.x₁ : ℝ)| ≤ √2 ^ x.exp ∧ |(x.num.x₂ : ℝ)| ≤ √2 ^ x.exp ∧ |(x.num.x₃ : ℝ)| ≤ √2 ^ x.exp := by
  have hle {c : ℤ} (hc : c ^ 2 ≤ x.num.absSq.a) : |(c : ℝ)| ≤ √2 ^ x.exp := by
    have hsq : (c : ℝ) ^ 2 ≤ (√2 ^ x.exp) ^ 2 := by
      rw [← pow_mul, mul_comm, pow_mul, Real.sq_sqrt (by norm_num)]
      exact_mod_cast hc.trans h
    exact abs_le_of_sq_le_sq hsq (by positivity)
  have hsum := CycloInt.absSq_a x.num
  have h₀ := sq_nonneg x.num.x₀
  have h₁ := sq_nonneg x.num.x₁
  have h₂ := sq_nonneg x.num.x₂
  have h₃ := sq_nonneg x.num.x₃
  exact ⟨hle (by linarith), hle (by linarith), hle (by linarith), hle (by linarith)⟩

theorem Bounded.part_near {p : ℕ} (hp : 1 ≤ p) {x : CycloFrac ℕ} {q : QuadFrac ℕ} {c d : ℤ} (hexp : q.exp = x.exp + 1)
    (ha : |(q.num.a : ℝ)| ≤ |(c : ℝ)| + |(d : ℝ)|) (hc : |(c : ℝ)| ≤ √2 ^ x.exp) (hd : |(d : ℝ)| ≤ √2 ^ x.exp)
    (hb : |(q.num.b : ℝ)| ≤ √2 ^ x.exp) : Approx.Near 5 (5 / 2) (q.eval : Approx p) q.toReal := by
  refine (QuadFrac.eval_near hp q).mono le_rfl ?_
  have hroot : (7 : ℝ) / 5 ≤ √2 := Real.le_sqrt_of_sq_le (by norm_num)
  have hpow : (0 : ℝ) < √2 ^ x.exp := by positivity
  have hmul := mul_le_mul_of_nonneg_right hb (Real.sqrt_nonneg 2)
  have hlow := mul_le_mul_of_nonneg_left hroot hpow.le
  rw [hexp, pow_succ, div_le_iff₀ (by positivity)]
  linarith

theorem Bounded.re_near {p : ℕ} (hp : 1 ≤ p) {x : CycloFrac ℕ} (h : Bounded x) :
    Approx.Near 5 (5 / 2) ((re x).eval : Approx p) x.value.re := by
  rw [value_re]
  obtain ⟨h₀, h₁, -, h₃⟩ := h.coordinates_le
  refine part_near hp (c := x.num.x₁) (d := x.num.x₃) rfl ?_ h₁ h₃ h₀
  simp only [re]
  push_cast
  exact abs_sub _ _

theorem Bounded.im_near {p : ℕ} (hp : 1 ≤ p) {x : CycloFrac ℕ} (h : Bounded x) :
    Approx.Near 5 (5 / 2) ((im x).eval : Approx p) x.value.im := by
  rw [value_im]
  obtain ⟨-, h₁, h₂, h₃⟩ := h.coordinates_le
  refine part_near hp (c := x.num.x₁) (d := x.num.x₃) rfl ?_ h₁ h₃ h₂
  simp only [im]
  push_cast
  exact abs_add_le _ _

theorem Bounded.conj {x : CycloFrac ℕ} (h : Bounded x) : Bounded (conj x) := by
  rwa [Bounded, CycloFrac.conj, CycloInt.absSq_conj]

theorem Bounded.neg {x : CycloFrac ℕ} (h : Bounded x) : Bounded (-x) := by
  change (-x.num).absSq.a ≤ 2 ^ x.exp
  rw [CycloInt.absSq_a]
  rw [Bounded, CycloInt.absSq_a] at h
  simpa using h

theorem Bounded.timesOmegaPow {x : CycloFrac ℕ} (h : Bounded x) (n : ℤ) : Bounded (timesOmegaPow x n) := by
  have hone : CycloInt.absSq CycloInt.omega = 1 := rfl
  rwa [Bounded, CycloFrac.timesOmegaPow, CycloInt.timesOmegaPow_eq, CycloInt.absSq_mul, CycloInt.absSq_pow, hone,
    one_pow, mul_one]

theorem bounded_of_sum {x y : CycloFrac ℕ} (h : (absSq x + absSq y).same 1 = true) : Bounded x := by
  rw [RootFrac.same_iff, RootFrac.value_add, RootFrac.value_one, QuadFrac.value_eq_toReal, QuadFrac.value_eq_toReal] at h
  have hreal : (absSq x).toReal + (absSq y).toReal = 1 := by exact_mod_cast h
  have hpow : ∀ k : ℕ, (√2 : ℝ) ^ (2 * k) = 2 ^ k := fun k => by rw [pow_mul, Real.sq_sqrt (by norm_num)]
  simp only [absSq, QuadFrac.toReal_eq, Exponent.load_nat, Exponent.store_nat] at hreal
  rw [hpow, hpow, div_add_div _ _ (by positivity) (by positivity),
    div_eq_one_iff_eq (by positivity)] at hreal
  -- the same equation in the ring, where the rational parts can be compared
  have hring : x.num.absSq * 2 ^ y.exp + 2 ^ x.exp * y.num.absSq = 2 ^ x.exp * 2 ^ y.exp := by
    apply QuadInt.realHom_injective
    simpa only [map_add, map_mul, map_pow, map_ofNat] using hreal
  have hcast : ∀ k : ℕ, (2 : QuadInt) ^ k = ((2 ^ k : ℤ) : QuadInt) := fun k => by push_cast; rfl
  rw [hcast, hcast] at hring
  have ha := congrArg QuadInt.a hring
  simp only [QuadInt.add_a, QuadInt.mul_a, QuadInt.intCast_a, QuadInt.intCast_b, mul_zero, zero_mul, add_zero] at ha
  have hy := mul_nonneg (by positivity : (0 : ℤ) ≤ 2 ^ x.exp) (CycloInt.absSq_a_nonneg y.num)
  exact le_of_mul_le_mul_right (by linarith) (by positivity : (0 : ℤ) < 2 ^ y.exp)

end CycloFrac

namespace QubitOp

open CycloFrac

theorem bounded_entries {u : QubitOp ℕ} (hu : u.isUnitary = true) :
    Bounded u.entries.m₀₀ ∧ Bounded u.entries.m₀₁ ∧ Bounded u.entries.m₁₀ ∧ Bounded u.entries.m₁₁ := by
  have hz : Bounded u.z := bounded_of_sum hu
  have hw : Bounded u.w := by
    refine bounded_of_sum (y := u.z) ?_
    rw [RootFrac.same_iff, RootFrac.value_add, add_comm, ← RootFrac.value_add, ← RootFrac.same_iff]
    exact hu
  exact ⟨hz, (hw.conj.timesOmegaPow _).neg, hw, hz.conj.timesOmegaPow _⟩

end QubitOp

end CliffordT

import Mathlib
import CliffordT.Ring.QuadInt

/-!
The ring `ℤ[√2]` as a commutative ring, its two embeddings in the real numbers, and its norm.

The norm is multiplicative and vanishes at zero only, so the ring has no zero divisors, and its units
are the numbers of norm one or minus one.
-/

namespace CliffordT.QuadInt

attribute [ext] QuadInt

@[simp] theorem zero_a : (0 : QuadInt).a = 0 := rfl
@[simp] theorem zero_b : (0 : QuadInt).b = 0 := rfl
@[simp] theorem one_a : (1 : QuadInt).a = 1 := rfl
@[simp] theorem one_b : (1 : QuadInt).b = 0 := rfl
@[simp] theorem add_a (x y : QuadInt) : (x + y).a = x.a + y.a := rfl
@[simp] theorem add_b (x y : QuadInt) : (x + y).b = x.b + y.b := rfl
@[simp] theorem sub_a (x y : QuadInt) : (x - y).a = x.a - y.a := rfl
@[simp] theorem sub_b (x y : QuadInt) : (x - y).b = x.b - y.b := rfl
@[simp] theorem neg_a (x : QuadInt) : (-x).a = -x.a := rfl
@[simp] theorem neg_b (x : QuadInt) : (-x).b = -x.b := rfl
@[simp] theorem mul_a (x y : QuadInt) : (x * y).a = x.a * y.a + 2 * (x.b * y.b) := rfl
@[simp] theorem mul_b (x y : QuadInt) : (x * y).b = x.a * y.b + x.b * y.a := rfl
@[simp] theorem ofInt_a (n : ℤ) : (ofInt n).a = n := rfl
@[simp] theorem ofInt_b (n : ℤ) : (ofInt n).b = 0 := rfl
@[simp] theorem bullet_a (x : QuadInt) : x.bullet.a = x.a := rfl
@[simp] theorem bullet_b (x : QuadInt) : x.bullet.b = -x.b := rfl

instance : CommRing QuadInt where
  add_assoc x y z := by ext <;> simp <;> ring
  zero_add x := by ext <;> simp
  add_zero x := by ext <;> simp
  add_comm x y := by ext <;> simp <;> ring
  neg_add_cancel x := by ext <;> simp
  sub_eq_add_neg x y := by ext <;> simp <;> ring
  mul_assoc x y z := by ext <;> simp <;> ring
  one_mul x := by ext <;> simp
  mul_one x := by ext <;> simp
  zero_mul x := by ext <;> simp
  mul_zero x := by ext <;> simp
  left_distrib x y z := by ext <;> simp <;> ring
  right_distrib x y z := by ext <;> simp <;> ring
  mul_comm x y := by ext <;> simp <;> ring
  nsmul := nsmulRec
  zsmul := zsmulRec
  natCast n := ofInt n
  natCast_zero := rfl
  natCast_succ n := by ext <;> simp
  intCast := ofInt
  intCast_ofNat _ := rfl
  intCast_negSucc _ := rfl

@[simp] theorem intCast_a (n : ℤ) : (n : QuadInt).a = n := rfl
@[simp] theorem intCast_b (n : ℤ) : (n : QuadInt).b = 0 := rfl
@[simp] theorem natCast_a (n : ℕ) : (n : QuadInt).a = n := rfl
@[simp] theorem natCast_b (n : ℕ) : (n : QuadInt).b = 0 := rfl
@[simp] theorem ofNat_a (n : ℕ) [n.AtLeastTwo] : (ofNat(n) : QuadInt).a = n := rfl
@[simp] theorem ofNat_b (n : ℕ) [n.AtLeastTwo] : (ofNat(n) : QuadInt).b = 0 := rfl

/-- The number `√2`. -/
def root : QuadInt := ⟨0, 1⟩

@[simp] theorem root_a : root.a = 0 := rfl
@[simp] theorem root_b : root.b = 1 := rfl

theorem root_sq : root ^ 2 = 2 := by ext <;> simp [pow_two]

theorem timesRoot_eq (x : QuadInt) : x.timesRoot = x * root := by
  ext <;> simp [timesRoot]

theorem even_iff_root_dvd (x : QuadInt) : x.isEven = true ↔ root ∣ x := by
  simp only [isEven, decide_eq_true_eq]
  constructor
  · intro h
    refine ⟨⟨x.b, x.a / 2⟩, ?_⟩
    ext
    · simp; omega
    · simp
  · rintro ⟨y, rfl⟩
    simp

theorem overRoot?_eq_some_iff (x y : QuadInt) : x.overRoot? = some y ↔ y * root = x := by
  unfold overRoot?
  constructor
  · intro h
    split at h
    · next he =>
      obtain rfl := Option.some.inj h
      simp only [isEven, decide_eq_true_eq] at he
      ext
      · simp; omega
      · simp
    · cases h
  · rintro rfl
    have : (y * root).isEven = true := (even_iff_root_dvd _).2 (dvd_mul_left _ _)
    rw [if_pos this]
    congr 1
    ext <;> simp

/-! ### The conjugation and the norm -/

/-- The conjugation that sends `√2` to `-√2`, as an automorphism. -/
def bulletHom : QuadInt →+* QuadInt where
  toFun := bullet
  map_one' := by ext <;> simp
  map_zero' := by ext <;> simp
  map_add' x y := by ext <;> simp [add_comm]
  map_mul' x y := by ext <;> simp [add_comm]

@[simp] theorem bulletHom_apply (x : QuadInt) : bulletHom x = x.bullet := rfl

@[simp] theorem bullet_bullet (x : QuadInt) : x.bullet.bullet = x := by ext <;> simp

theorem bullet_mul (x y : QuadInt) : (x * y).bullet = x.bullet * y.bullet := map_mul bulletHom x y

theorem bullet_add (x y : QuadInt) : (x + y).bullet = x.bullet + y.bullet := map_add bulletHom x y

theorem bullet_dvd {x y : QuadInt} (h : x ∣ y) : x.bullet ∣ y.bullet := map_dvd bulletHom h

theorem mul_bullet (x : QuadInt) : x * x.bullet = (x.norm : QuadInt) := by
  ext <;> simp [norm] <;> ring

theorem norm_mul (x y : QuadInt) : (x * y).norm = x.norm * y.norm := by
  simp [norm]; ring

@[simp] theorem norm_one : norm 1 = 1 := rfl

@[simp] theorem norm_zero : norm 0 = 0 := rfl

@[simp] theorem norm_bullet (x : QuadInt) : x.bullet.norm = x.norm := by simp [norm]

theorem norm_intCast (n : ℤ) : (n : QuadInt).norm = n ^ 2 := by simp [norm]; ring

theorem norm_natCast (n : ℕ) : (n : QuadInt).norm = (n : ℤ) ^ 2 := norm_intCast n

theorem norm_pow (x : QuadInt) (n : ℕ) : (x ^ n).norm = x.norm ^ n := by
  induction n with
  | zero => simp
  | succ n ih => rw [pow_succ, norm_mul, ih, pow_succ]

theorem norm_dvd {x y : QuadInt} (h : x ∣ y) : x.norm ∣ y.norm := by
  obtain ⟨z, rfl⟩ := h
  exact ⟨z.norm, norm_mul x z⟩

/-- No square is twice a square, apart from zero. -/
theorem norm_eq_zero_iff (x : QuadInt) : x.norm = 0 ↔ x = 0 := by
  constructor
  · intro h
    have hsq : x.a * x.a = 2 * x.b * x.b := by
      simp only [norm] at h
      linarith
    have : Zsqrtd.Nonsquare 2 := ⟨fun n hn => by
      have : n < 2 := by nlinarith
      interval_cases n <;> omega⟩
    obtain ⟨ha, hb⟩ := Zsqrtd.divides_sq_eq_zero_z (d := 2) (by exact_mod_cast hsq)
    exact QuadInt.ext ha hb
  · rintro rfl
    rfl

theorem norm_ne_zero {x : QuadInt} (h : x ≠ 0) : x.norm ≠ 0 := mt (norm_eq_zero_iff x).1 h

instance : Nontrivial QuadInt := ⟨0, 1, by decide⟩

instance : NoZeroDivisors QuadInt where
  eq_zero_or_eq_zero_of_mul_eq_zero {x y} h := by
    have hn : x.norm * y.norm = 0 := by rw [← norm_mul, h, norm_zero]
    exact (mul_eq_zero.1 hn).imp (norm_eq_zero_iff x).1 (norm_eq_zero_iff y).1

instance : IsDomain QuadInt := NoZeroDivisors.to_isDomain _

theorem isUnit_iff (x : QuadInt) : IsUnit x ↔ x.norm.natAbs = 1 := by
  constructor
  · rintro ⟨u, rfl⟩
    have h : (u : QuadInt).norm * (↑u⁻¹ : QuadInt).norm = 1 := by
      rw [← norm_mul, Units.mul_inv, norm_one]
    exact Int.natAbs_eq_iff.2 (Int.isUnit_iff.1 (IsUnit.of_mul_eq_one _ h))
  · intro h
    have hm := mul_bullet x
    obtain h1 | h1 := Int.natAbs_eq_iff.1 h
    · exact IsUnit.of_mul_eq_one x.bullet (by rw [hm, h1]; simp)
    · exact IsUnit.of_mul_eq_one (-x.bullet) (by rw [mul_neg, hm, h1]; simp)

/-! ### The embeddings -/

/-- The real number `a + b√2`. -/
noncomputable def realHom : QuadInt →+* ℝ where
  toFun x := x.a + x.b * √2
  map_one' := by simp
  map_zero' := by simp
  map_add' x y := by simp; ring
  map_mul' x y := by
    have h : √2 * √2 = (2 : ℝ) := Real.mul_self_sqrt (by norm_num)
    simp only [mul_a, mul_b]
    push_cast
    linear_combination -(x.b * y.b : ℝ) * h

theorem realHom_apply (x : QuadInt) : realHom x = x.a + x.b * √2 := rfl

theorem realHom_mul_bullet (x : QuadInt) : realHom x * realHom x.bullet = x.norm := by
  rw [← map_mul, mul_bullet, map_intCast]

theorem realHom_injective : Function.Injective realHom := by
  rw [injective_iff_map_eq_zero]
  intro x h
  have hn : (x.norm : ℝ) = 0 := by rw [← realHom_mul_bullet, h, zero_mul]
  exact (norm_eq_zero_iff x).1 (by exact_mod_cast hn)

@[simp] theorem realHom_root : realHom root = √2 := by simp [realHom_apply]

end CliffordT.QuadInt

import CliffordT.Proofs.Ring.Quad
import CliffordT.Ring.CycloInt

/-!
The ring `ℤ[ω]` as a commutative ring inside the complex numbers, with complex conjugation, the
conjugation that sends `√2` to `-√2`, and the two norms.

The squared absolute value is the norm down to `ℤ[√2]`. The norm down to `ℤ` is a sum of two squares
in two ways; one of them shows that it is never negative.
-/

namespace CliffordT.CycloInt

attribute [ext] CycloInt

@[simp] theorem zero_x₀ : (0 : CycloInt).x₀ = 0 := rfl
@[simp] theorem zero_x₁ : (0 : CycloInt).x₁ = 0 := rfl
@[simp] theorem zero_x₂ : (0 : CycloInt).x₂ = 0 := rfl
@[simp] theorem zero_x₃ : (0 : CycloInt).x₃ = 0 := rfl
@[simp] theorem one_x₀ : (1 : CycloInt).x₀ = 1 := rfl
@[simp] theorem one_x₁ : (1 : CycloInt).x₁ = 0 := rfl
@[simp] theorem one_x₂ : (1 : CycloInt).x₂ = 0 := rfl
@[simp] theorem one_x₃ : (1 : CycloInt).x₃ = 0 := rfl
@[simp] theorem add_x₀ (x y : CycloInt) : (x + y).x₀ = x.x₀ + y.x₀ := rfl
@[simp] theorem add_x₁ (x y : CycloInt) : (x + y).x₁ = x.x₁ + y.x₁ := rfl
@[simp] theorem add_x₂ (x y : CycloInt) : (x + y).x₂ = x.x₂ + y.x₂ := rfl
@[simp] theorem add_x₃ (x y : CycloInt) : (x + y).x₃ = x.x₃ + y.x₃ := rfl
@[simp] theorem sub_x₀ (x y : CycloInt) : (x - y).x₀ = x.x₀ - y.x₀ := rfl
@[simp] theorem sub_x₁ (x y : CycloInt) : (x - y).x₁ = x.x₁ - y.x₁ := rfl
@[simp] theorem sub_x₂ (x y : CycloInt) : (x - y).x₂ = x.x₂ - y.x₂ := rfl
@[simp] theorem sub_x₃ (x y : CycloInt) : (x - y).x₃ = x.x₃ - y.x₃ := rfl
@[simp] theorem neg_x₀ (x : CycloInt) : (-x).x₀ = -x.x₀ := rfl
@[simp] theorem neg_x₁ (x : CycloInt) : (-x).x₁ = -x.x₁ := rfl
@[simp] theorem neg_x₂ (x : CycloInt) : (-x).x₂ = -x.x₂ := rfl
@[simp] theorem neg_x₃ (x : CycloInt) : (-x).x₃ = -x.x₃ := rfl

@[simp] theorem mul_x₀ (x y : CycloInt) :
    (x * y).x₀ = x.x₀ * y.x₀ - (x.x₁ * y.x₃ + x.x₂ * y.x₂ + x.x₃ * y.x₁) := rfl

@[simp] theorem mul_x₁ (x y : CycloInt) :
    (x * y).x₁ = x.x₀ * y.x₁ + x.x₁ * y.x₀ - (x.x₂ * y.x₃ + x.x₃ * y.x₂) := rfl

@[simp] theorem mul_x₂ (x y : CycloInt) :
    (x * y).x₂ = x.x₀ * y.x₂ + x.x₁ * y.x₁ + x.x₂ * y.x₀ - x.x₃ * y.x₃ := rfl

@[simp] theorem mul_x₃ (x y : CycloInt) :
    (x * y).x₃ = x.x₀ * y.x₃ + x.x₁ * y.x₂ + x.x₂ * y.x₁ + x.x₃ * y.x₀ := rfl

@[simp] theorem conj_x₀ (x : CycloInt) : x.conj.x₀ = x.x₀ := rfl
@[simp] theorem conj_x₁ (x : CycloInt) : x.conj.x₁ = -x.x₃ := rfl
@[simp] theorem conj_x₂ (x : CycloInt) : x.conj.x₂ = -x.x₂ := rfl
@[simp] theorem conj_x₃ (x : CycloInt) : x.conj.x₃ = -x.x₁ := rfl
@[simp] theorem bullet_x₀ (x : CycloInt) : x.bullet.x₀ = x.x₀ := rfl
@[simp] theorem bullet_x₁ (x : CycloInt) : x.bullet.x₁ = -x.x₁ := rfl
@[simp] theorem bullet_x₂ (x : CycloInt) : x.bullet.x₂ = x.x₂ := rfl
@[simp] theorem bullet_x₃ (x : CycloInt) : x.bullet.x₃ = -x.x₃ := rfl
@[simp] theorem ofQuad_x₀ (x : QuadInt) : (ofQuad x).x₀ = x.a := rfl
@[simp] theorem ofQuad_x₁ (x : QuadInt) : (ofQuad x).x₁ = x.b := rfl
@[simp] theorem ofQuad_x₂ (x : QuadInt) : (ofQuad x).x₂ = 0 := rfl
@[simp] theorem ofQuad_x₃ (x : QuadInt) : (ofQuad x).x₃ = -x.b := rfl

instance : CommRing CycloInt where
  add_assoc x y z := by ext <;> simp <;> ring
  zero_add x := by ext <;> simp
  add_zero x := by ext <;> simp
  add_comm x y := by ext <;> simp <;> ring
  neg_add_cancel x := by ext <;> simp
  sub_eq_add_neg x y := by ext <;> simp <;> ring
  mul_assoc x y z := by ext <;> simp <;> ring
  one_mul x := by ext <;> simp
  mul_one x := by ext <;> simp
  zero_mul x := by ext <;> simp
  mul_zero x := by ext <;> simp
  left_distrib x y z := by ext <;> simp <;> ring
  right_distrib x y z := by ext <;> simp <;> ring
  mul_comm x y := by ext <;> simp <;> ring
  nsmul := nsmulRec
  zsmul := zsmulRec
  natCast n := ofInt n
  natCast_zero := rfl
  natCast_succ n := by ext <;> simp [ofInt]
  intCast := ofInt
  intCast_ofNat _ := rfl
  intCast_negSucc _ := rfl

@[simp] theorem intCast_x₀ (n : ℤ) : (n : CycloInt).x₀ = n := rfl
@[simp] theorem intCast_x₁ (n : ℤ) : (n : CycloInt).x₁ = 0 := rfl
@[simp] theorem intCast_x₂ (n : ℤ) : (n : CycloInt).x₂ = 0 := rfl
@[simp] theorem intCast_x₃ (n : ℤ) : (n : CycloInt).x₃ = 0 := rfl
@[simp] theorem natCast_x₀ (n : ℕ) : (n : CycloInt).x₀ = n := rfl
@[simp] theorem natCast_x₁ (n : ℕ) : (n : CycloInt).x₁ = 0 := rfl
@[simp] theorem natCast_x₂ (n : ℕ) : (n : CycloInt).x₂ = 0 := rfl
@[simp] theorem natCast_x₃ (n : ℕ) : (n : CycloInt).x₃ = 0 := rfl
@[simp] theorem ofNat_x₀ (n : ℕ) [n.AtLeastTwo] : (ofNat(n) : CycloInt).x₀ = n := rfl
@[simp] theorem ofNat_x₁ (n : ℕ) [n.AtLeastTwo] : (ofNat(n) : CycloInt).x₁ = 0 := rfl
@[simp] theorem ofNat_x₂ (n : ℕ) [n.AtLeastTwo] : (ofNat(n) : CycloInt).x₂ = 0 := rfl
@[simp] theorem ofNat_x₃ (n : ℕ) [n.AtLeastTwo] : (ofNat(n) : CycloInt).x₃ = 0 := rfl

/-! ### The maps -/

/-- The inclusion of `ℤ[√2]`. -/
def ofQuadHom : QuadInt →+* CycloInt where
  toFun := ofQuad
  map_one' := by ext <;> simp
  map_zero' := by ext <;> simp
  map_add' x y := by ext <;> simp [add_comm]
  map_mul' x y := by ext <;> simp <;> ring

@[simp] theorem ofQuadHom_apply (x : QuadInt) : ofQuadHom x = ofQuad x := rfl

theorem ofQuad_injective : Function.Injective ofQuad := by
  intro x y h
  exact QuadInt.ext (congrArg x₀ h) (congrArg x₁ h)

theorem ofQuad_mul (x y : QuadInt) : ofQuad (x * y) = ofQuad x * ofQuad y := map_mul ofQuadHom x y

theorem ofQuad_intCast (n : ℤ) : ofQuad (n : QuadInt) = (n : CycloInt) := map_intCast ofQuadHom n

@[simp] theorem ofQuad_zero : ofQuad 0 = 0 := map_zero ofQuadHom

@[simp] theorem ofQuad_one : ofQuad 1 = 1 := map_one ofQuadHom

/-- Complex conjugation as an automorphism. -/
def conjHom : CycloInt →+* CycloInt where
  toFun := conj
  map_one' := by ext <;> simp
  map_zero' := by ext <;> simp
  map_add' x y := by ext <;> simp [add_comm]
  map_mul' x y := by ext <;> simp <;> ring

@[simp] theorem conjHom_apply (x : CycloInt) : conjHom x = x.conj := rfl

@[simp] theorem conj_conj (x : CycloInt) : x.conj.conj = x := by ext <;> simp

theorem conj_mul (x y : CycloInt) : (x * y).conj = x.conj * y.conj := map_mul conjHom x y

@[simp] theorem conj_ofQuad (x : QuadInt) : (ofQuad x).conj = ofQuad x := by ext <;> simp

/-- The conjugation that sends `ω` to `-ω`, as an automorphism. -/
def bulletHom : CycloInt →+* CycloInt where
  toFun := bullet
  map_one' := by ext <;> simp
  map_zero' := by ext <;> simp
  map_add' x y := by ext <;> simp [add_comm]
  map_mul' x y := by ext <;> simp <;> ring

@[simp] theorem bulletHom_apply (x : CycloInt) : bulletHom x = x.bullet := rfl

@[simp] theorem bullet_bullet (x : CycloInt) : x.bullet.bullet = x := by ext <;> simp

theorem bullet_mul (x y : CycloInt) : (x * y).bullet = x.bullet * y.bullet := map_mul bulletHom x y

theorem bullet_conj (x : CycloInt) : x.bullet.conj = x.conj.bullet := by ext <;> simp

theorem bullet_ofQuad (x : QuadInt) : (ofQuad x).bullet = ofQuad x.bullet := by ext <;> simp

/-! ### The norms -/

theorem conj_mul_self (x : CycloInt) : x.conj * x = ofQuad x.absSq := by
  ext <;> simp [absSq] <;> ring

theorem mul_conj (x : CycloInt) : x * x.conj = ofQuad x.absSq := by
  rw [mul_comm, conj_mul_self]

theorem absSq_mul (x y : CycloInt) : (x * y).absSq = x.absSq * y.absSq := by
  apply ofQuad_injective
  rw [ofQuad_mul, ← conj_mul_self, ← conj_mul_self, ← conj_mul_self, conj_mul]
  ring

@[simp] theorem absSq_one : absSq 1 = 1 := rfl

@[simp] theorem absSq_zero : absSq 0 = 0 := rfl

theorem absSq_pow (x : CycloInt) (n : ℕ) : (x ^ n).absSq = x.absSq ^ n := by
  induction n with
  | zero => simp
  | succ n ih => rw [pow_succ, absSq_mul, ih, pow_succ]

theorem absSq_ofQuad (x : QuadInt) : (ofQuad x).absSq = x ^ 2 := by
  ext <;> simp [absSq, pow_two] <;> ring

@[simp] theorem absSq_conj (x : CycloInt) : x.conj.absSq = x.absSq := by
  ext <;> simp [absSq] <;> ring

theorem absSq_bullet (x : CycloInt) : x.bullet.absSq = x.absSq.bullet := by
  ext <;> simp [absSq]; ring

theorem absSq_dvd {x y : CycloInt} (h : x ∣ y) : x.absSq ∣ y.absSq := by
  obtain ⟨z, rfl⟩ := h
  exact ⟨z.absSq, absSq_mul x z⟩

theorem norm_mul (x y : CycloInt) : (x * y).norm = x.norm * y.norm := by
  rw [norm, absSq_mul, QuadInt.norm_mul, norm, norm]

@[simp] theorem norm_one : norm 1 = 1 := rfl

@[simp] theorem norm_zero : norm 0 = 0 := rfl

@[simp] theorem norm_conj (x : CycloInt) : x.conj.norm = x.norm := by rw [norm, absSq_conj, norm]

theorem norm_ofQuad (x : QuadInt) : (ofQuad x).norm = x.norm ^ 2 := by
  rw [norm, absSq_ofQuad, QuadInt.norm_pow]

theorem norm_pow (x : CycloInt) (e : ℕ) : (x ^ e).norm = x.norm ^ e := by
  rw [norm, absSq_pow, QuadInt.norm_pow, norm]

theorem norm_bullet (x : CycloInt) : x.bullet.norm = x.norm := by
  rw [norm, norm, absSq_bullet, QuadInt.norm_bullet]

theorem norm_dvd {x y : CycloInt} (h : x ∣ y) : x.norm ∣ y.norm := QuadInt.norm_dvd (absSq_dvd h)

/-- The product of a number with its conjugate over `ℤ[i]` is a Gaussian integer, and the norm is the
sum of the squares of its coordinates. -/
theorem norm_eq_sq_add_sq (x : CycloInt) :
    x.norm = (x.x₀ ^ 2 - x.x₂ ^ 2 + 2 * x.x₁ * x.x₃) ^ 2 +
      (2 * x.x₀ * x.x₂ - x.x₁ ^ 2 + x.x₃ ^ 2) ^ 2 := by
  simp only [norm, QuadInt.norm, absSq]
  ring

theorem norm_nonneg (x : CycloInt) : 0 ≤ x.norm := by
  rw [norm_eq_sq_add_sq]
  positivity

theorem absSq_eq_zero_iff (x : CycloInt) : x.absSq = 0 ↔ x = 0 := by
  constructor
  · intro h
    have h0 : x.x₃ * x.x₃ + x.x₂ * x.x₂ + x.x₁ * x.x₁ + x.x₀ * x.x₀ = 0 := congrArg QuadInt.a h
    ext <;> simp <;> nlinarith [mul_self_nonneg x.x₀, mul_self_nonneg x.x₁, mul_self_nonneg x.x₂,
      mul_self_nonneg x.x₃]
  · rintro rfl
    rfl

theorem norm_eq_zero_iff (x : CycloInt) : x.norm = 0 ↔ x = 0 := by
  rw [norm, QuadInt.norm_eq_zero_iff, absSq_eq_zero_iff]

instance : Nontrivial CycloInt := ⟨0, 1, by decide⟩

instance : NoZeroDivisors CycloInt where
  eq_zero_or_eq_zero_of_mul_eq_zero {x y} h := by
    have hn : x.norm * y.norm = 0 := by rw [← norm_mul, h, norm_zero]
    exact (mul_eq_zero.1 hn).imp (norm_eq_zero_iff x).1 (norm_eq_zero_iff y).1

instance : IsDomain CycloInt := NoZeroDivisors.to_isDomain _

theorem isUnit_iff (x : CycloInt) : IsUnit x ↔ x.norm = 1 := by
  constructor
  · intro h
    obtain ⟨y, hy⟩ := h.exists_right_inv
    have hn : x.norm * y.norm = 1 := by rw [← norm_mul, hy, norm_one]
    exact Int.eq_one_of_mul_eq_one_right (norm_nonneg x) hn
  · intro h
    have hu : IsUnit x.absSq := (QuadInt.isUnit_iff _).2 (by rw [← norm, h]; rfl)
    have hm : IsUnit (x.conj * x) := by
      rw [conj_mul_self]
      exact hu.map ofQuadHom
    exact isUnit_of_mul_isUnit_right hm

/-! ### Multiplication by `ω` and by `√2` -/

theorem timesOmega_eq (x : CycloInt) : x.timesOmega = x * omega := by
  ext <;> simp [timesOmega, omega]

theorem absSq_a (x : CycloInt) : x.absSq.a = x.x₀ ^ 2 + (x.x₁ ^ 2 + (x.x₂ ^ 2 + x.x₃ ^ 2)) := by
  simp only [absSq]
  ring

theorem absSq_a_nonneg (x : CycloInt) : 0 ≤ x.absSq.a := by
  rw [absSq_a]
  positivity

theorem eq_zero_of_absSq_a {x : CycloInt} (h : x.absSq.a = 0) : x = 0 := by
  rw [absSq_a] at h
  have h₀ : x.x₀ ^ 2 = 0 := by nlinarith [sq_nonneg x.x₀, sq_nonneg x.x₁, sq_nonneg x.x₂, sq_nonneg x.x₃]
  have h₁ : x.x₁ ^ 2 = 0 := by nlinarith [sq_nonneg x.x₀, sq_nonneg x.x₁, sq_nonneg x.x₂, sq_nonneg x.x₃]
  have h₂ : x.x₂ ^ 2 = 0 := by nlinarith [sq_nonneg x.x₀, sq_nonneg x.x₁, sq_nonneg x.x₂, sq_nonneg x.x₃]
  have h₃ : x.x₃ ^ 2 = 0 := by nlinarith [sq_nonneg x.x₀, sq_nonneg x.x₁, sq_nonneg x.x₂, sq_nonneg x.x₃]
  ext
  · exact pow_eq_zero_iff two_ne_zero |>.1 h₀
  · exact pow_eq_zero_iff two_ne_zero |>.1 h₁
  · exact pow_eq_zero_iff two_ne_zero |>.1 h₂
  · exact pow_eq_zero_iff two_ne_zero |>.1 h₃

theorem sq_add_eq_one {p q : ℤ} (hq : 0 ≤ q) (h : p ^ 2 + q = 1) :
    p = 0 ∧ q = 1 ∨ (p = 1 ∨ p = -1) ∧ q = 0 := by
  have hp : |p| ≤ 1 := (sq_le_one_iff_abs_le_one p).1 (by omega)
  obtain ⟨hl, hu⟩ := abs_le.1 hp
  obtain rfl | rfl | rfl : p = 0 ∨ p = 1 ∨ p = -1 := by omega
  · exact .inl ⟨rfl, by omega⟩
  · exact .inr ⟨.inl rfl, by omega⟩
  · exact .inr ⟨.inr rfl, by omega⟩

theorem pow_eq (x : CycloInt) (e : ℕ) : x.pow e = x ^ e := by
  induction e with
  | zero => rw [CycloInt.pow, pow_zero]
  | succ e ih => rw [CycloInt.pow, ih, pow_succ]

theorem toQuad?_ofQuad (x : QuadInt) : (ofQuad x).toQuad? = some x := by
  simp [toQuad?]

/-- The powers of `ω` are the only elements whose coefficients have one as the sum of their squares. -/
theorem exists_omega_pow {x : CycloInt} (h : x.absSq.a = 1) : ∃ i < 8, x = omega ^ i := by
  obtain ⟨a, b, c, d⟩ := x
  rw [absSq_a] at h
  obtain ⟨ha, h₁⟩ | ⟨ha, h₁⟩ := sq_add_eq_one (by positivity) h
  · obtain ⟨hb, h₂⟩ | ⟨hb, h₂⟩ := sq_add_eq_one (by positivity) h₁
    · obtain ⟨hc, h₃⟩ | ⟨hc, h₃⟩ := sq_add_eq_one (by positivity) h₂
      · obtain ⟨-, h₄⟩ | ⟨hd, -⟩ := sq_add_eq_one (q := 0) le_rfl (by rwa [add_zero])
        · cases h₄
        · dsimp only at ha hb hc hd
          obtain rfl | rfl := hd <;> subst ha hb hc
          · exact ⟨3, by decide, by decide⟩
          · exact ⟨7, by decide, by decide⟩
      · obtain hd : d = 0 := pow_eq_zero_iff two_ne_zero |>.1 h₃
        dsimp only at ha hb hc
        obtain rfl | rfl := hc <;> subst ha hb hd
        · exact ⟨2, by decide, by decide⟩
        · exact ⟨6, by decide, by decide⟩
    · have hrest : (⟨0, 0, c, d⟩ : CycloInt) = 0 := eq_zero_of_absSq_a (by rw [absSq_a]; simpa using h₂)
      obtain ⟨rfl, rfl⟩ : c = 0 ∧ d = 0 := by simpa [CycloInt.ext_iff] using hrest
      dsimp only at ha hb
      obtain rfl | rfl := hb <;> subst ha
      · exact ⟨1, by decide, by decide⟩
      · exact ⟨5, by decide, by decide⟩
  · have hrest : (⟨0, b, c, d⟩ : CycloInt) = 0 := eq_zero_of_absSq_a (by rw [absSq_a]; simpa using h₁)
    obtain ⟨rfl, rfl, rfl⟩ : b = 0 ∧ c = 0 ∧ d = 0 := by simpa [CycloInt.ext_iff] using hrest
    dsimp only at ha
    obtain rfl | rfl := ha
    · exact ⟨0, by decide, by decide⟩
    · exact ⟨4, by decide, by decide⟩

theorem timesOmegaPow_eq (x : CycloInt) (n : ℤ) : x.timesOmegaPow n = x * omega ^ (n % 8).toNat := by
  unfold timesOmegaPow
  induction (n % 8).toNat with
  | zero => simp [Nat.repeat]
  | succ k ih => rw [Nat.repeat, ih, timesOmega_eq, pow_succ, mul_assoc]

theorem timesRoot_eq (x : CycloInt) : x.timesRoot = x * ofQuad QuadInt.root := by
  ext <;> simp [timesRoot] <;> ring

theorem even_iff_root_dvd (x : CycloInt) : x.isEven = true ↔ ofQuad QuadInt.root ∣ x := by
  simp only [isEven, Bool.and_eq_true, decide_eq_true_eq]
  constructor
  · rintro ⟨h₁, h₂⟩
    refine ⟨⟨(x.x₁ - x.x₃) / 2, (x.x₀ + x.x₂) / 2, (x.x₁ + x.x₃) / 2, (x.x₂ - x.x₀) / 2⟩, ?_⟩
    ext <;> simp <;> omega
  · rintro ⟨y, rfl⟩
    simp only [mul_x₀, mul_x₁, mul_x₂, mul_x₃, ofQuad_x₀, ofQuad_x₁, ofQuad_x₂, ofQuad_x₃,
      QuadInt.root_a, QuadInt.root_b]
    omega

theorem overRoot?_eq_some_iff (x y : CycloInt) : x.overRoot? = some y ↔ y.timesRoot = x := by
  unfold overRoot?
  constructor
  · intro h
    split at h
    · next he =>
      obtain rfl := Option.some.inj h
      simp only [isEven, Bool.and_eq_true, decide_eq_true_eq] at he
      ext <;> simp only [timesRoot] <;> omega
    · cases h
  · rintro rfl
    have : y.timesRoot.isEven = true := by
      rw [even_iff_root_dvd, timesRoot_eq]
      exact dvd_mul_left _ _
    rw [if_pos this]
    congr 1
    ext <;> simp only [timesRoot] <;> omega

end CliffordT.CycloInt

import CliffordT.Proofs.Ring.Value

/-!
Divisibility in `ℤ[ω]` by powers of the prime `δ = 1 - ω` above two.

Up to units `δ²` is `√2` and `δ⁴` is `2`, so whether the first four powers of `δ` divide a number depends on
the parities of its coefficients. Two numbers prime to `δ` agree modulo `δ³` after one of them is multiplied by
exactly one of `1`, `ω⁻¹`, `ω⁻²`, `ω⁻³`.
-/

namespace CliffordT.CycloInt

/-- The prime `1 - ω` above two. -/
def delta : CycloInt := ⟨1, -1, 0, 0⟩

theorem absSq_delta : delta.absSq = ⟨2, -1⟩ := rfl

theorem delta_ne_zero : delta ≠ 0 := by decide

theorem root_ne_zero : ofQuad QuadInt.root ≠ 0 := by decide

theorem delta_sq : delta ^ 2 = ofQuad QuadInt.root * ⟨-1, 1, -1, 0⟩ := by decide

theorem root_eq : ofQuad QuadInt.root = delta ^ 2 * ⟨-1, 0, 1, 1⟩ := by decide

theorem delta_dvd_iff (x : CycloInt) : delta ∣ x ↔ (x.x₀ + x.x₁ + x.x₂ + x.x₃) % 2 = 0 := by
  constructor
  · rintro ⟨y, rfl⟩
    simp only [mul_x₀, mul_x₁, mul_x₂, mul_x₃, delta]
    omega
  · intro h
    let s := (x.x₀ + x.x₁ + x.x₂ + x.x₃) / 2
    refine ⟨⟨x.x₀ - s, x.x₁ + x.x₀ - s, x.x₂ + x.x₁ + x.x₀ - s, s⟩, ?_⟩
    ext <;> simp only [mul_x₀, mul_x₁, mul_x₂, mul_x₃, delta, s] <;> omega

theorem root_dvd_iff (x : CycloInt) :
    ofQuad QuadInt.root ∣ x ↔ (x.x₃ - x.x₁) % 2 = 0 ∧ (x.x₂ - x.x₀) % 2 = 0 := by
  rw [← even_iff_root_dvd]
  simp [isEven]

theorem root_mul_delta_dvd_iff (x : CycloInt) : ofQuad QuadInt.root * delta ∣ x ↔
    x.x₀ % 2 = x.x₁ % 2 ∧ x.x₁ % 2 = x.x₂ % 2 ∧ x.x₂ % 2 = x.x₃ % 2 := by
  constructor
  · rintro ⟨y, rfl⟩
    simp only [mul_x₀, mul_x₁, mul_x₂, mul_x₃, ofQuad_x₀, ofQuad_x₁, ofQuad_x₂, ofQuad_x₃, QuadInt.root_a,
      QuadInt.root_b, delta]
    omega
  · intro h
    obtain ⟨y, rfl⟩ := (root_dvd_iff x).2 (by omega)
    rw [mul_dvd_mul_iff_left root_ne_zero, delta_dvd_iff]
    simp only [mul_x₀, mul_x₁, mul_x₂, mul_x₃, ofQuad_x₀, ofQuad_x₁, ofQuad_x₂, ofQuad_x₃, QuadInt.root_a,
      QuadInt.root_b] at h
    omega

theorem root_mul_delta_sq_dvd_iff (x : CycloInt) : ofQuad QuadInt.root * delta ^ 2 ∣ x ↔
    x.x₀ % 2 = 0 ∧ x.x₁ % 2 = 0 ∧ x.x₂ % 2 = 0 ∧ x.x₃ % 2 = 0 := by
  have hu : IsUnit (⟨-1, 1, -1, 0⟩ : CycloInt) := (isUnit_iff _).2 rfl
  rw [delta_sq, ← mul_assoc, hu.mul_right_dvd]
  constructor
  · rintro ⟨y, rfl⟩
    simp only [mul_x₀, mul_x₁, mul_x₂, mul_x₃, ofQuad_x₀, ofQuad_x₁, ofQuad_x₂, ofQuad_x₃, QuadInt.root_a,
      QuadInt.root_b]
    omega
  · rintro ⟨h₀, h₁, h₂, h₃⟩
    refine ⟨⟨x.x₀ / 2, x.x₁ / 2, x.x₂ / 2, x.x₃ / 2⟩, ?_⟩
    ext <;> simp only [mul_x₀, mul_x₁, mul_x₂, mul_x₃, ofQuad_x₀, ofQuad_x₁, ofQuad_x₂, ofQuad_x₃,
      QuadInt.root_a, QuadInt.root_b] <;> omega

/-- The square of an integer leaves the same remainder modulo four as its parity. -/
theorem sq_emod_four (n : ℤ) : n * n % 4 = n % 2 := by
  obtain ⟨m, rfl | rfl⟩ := Int.even_or_odd' n
  · rw [show 2 * m * (2 * m) = 4 * (m * m) by ring]
    omega
  · rw [show (2 * m + 1) * (2 * m + 1) = 4 * (m * m + m) + 1 by ring]
    omega

theorem absSq_a_emod_four (x : CycloInt) :
    x.absSq.a % 4 = (x.x₀ % 2 + x.x₁ % 2 + x.x₂ % 2 + x.x₃ % 2) % 4 := by
  have h₀ := sq_emod_four x.x₀
  have h₁ := sq_emod_four x.x₁
  have h₂ := sq_emod_four x.x₂
  have h₃ := sq_emod_four x.x₃
  simp only [absSq]
  omega

/-- Modulo two the second coordinate of a squared absolute value is the product of the two sums of opposite
coefficients. -/
theorem absSq_b_emod_two (x : CycloInt) :
    x.absSq.b % 2 = (x.x₀ + x.x₂) * (x.x₁ + x.x₃) % 2 := by
  have h : x.absSq.b = (x.x₀ + x.x₂) * (x.x₁ + x.x₃) - 2 * (x.x₃ * x.x₀) := by
    simp only [absSq]
    ring
  rw [h]
  omega

theorem root_dvd_of_two_dvd_absSq {x : CycloInt} (h : (2 : QuadInt) ∣ x.absSq) :
    ofQuad QuadInt.root ∣ x := by
  obtain ⟨y, hy⟩ := h
  have ha := absSq_a_emod_four x
  have hb := absSq_b_emod_two x
  rw [hy] at ha hb
  simp only [QuadInt.mul_a, QuadInt.mul_b, QuadInt.ofNat_a, QuadInt.ofNat_b] at ha hb
  rw [root_dvd_iff]
  obtain h₁ | h₁ := Int.even_or_odd (x.x₀ + x.x₂)
  · rw [Int.even_iff] at h₁
    omega
  · obtain h₂ | h₂ := Int.even_or_odd (x.x₁ + x.x₃)
    · rw [Int.odd_iff] at h₁
      rw [Int.even_iff] at h₂
      omega
    · have h₃ := Int.odd_iff.1 (h₁.mul h₂)
      omega

/-- A number over a power of `√2` whose squared absolute value is in `ℤ[√2]` is in `ℤ[ω]`. -/
theorem root_pow_dvd_of_absSq {x : CycloInt} {k : ℕ} (h : (2 : QuadInt) ^ k ∣ x.absSq) :
    ofQuad QuadInt.root ^ k ∣ x := by
  induction k generalizing x with
  | zero => simp
  | succ k ih =>
    have h2 : (2 : QuadInt) ∣ x.absSq := (dvd_pow_self _ k.succ_ne_zero).trans h
    obtain ⟨y, rfl⟩ := root_dvd_of_two_dvd_absSq h2
    rw [pow_succ', mul_dvd_mul_iff_left root_ne_zero]
    apply ih
    rw [absSq_mul, absSq_ofQuad, QuadInt.root_sq, pow_succ'] at h
    exact (mul_dvd_mul_iff_left (by decide)).1 h

/-! ### Two numbers prime to `δ` -/

/-- The product with `ω⁻ʲ`. -/
def turnBack (x : CycloInt) (j : ℕ) : CycloInt := x * omega ^ (7 * j)

theorem turnBack_succ (x : CycloInt) (j : ℕ) :
    x.turnBack (j + 1) = ⟨(x.turnBack j).x₁, (x.turnBack j).x₂, (x.turnBack j).x₃, -(x.turnBack j).x₀⟩ := by
  have h : omega ^ 7 = ⟨0, 0, 0, -1⟩ := by decide
  have hs : x.turnBack (j + 1) = x.turnBack j * ⟨0, 0, 0, -1⟩ := by
    rw [turnBack, turnBack, mul_assoc, ← h, ← pow_add, mul_add, mul_one]
  rw [hs]
  ext <;> simp

@[simp] theorem turnBack_zero (x : CycloInt) : x.turnBack 0 = x := by simp [turnBack]

theorem turnBack_one (x : CycloInt) : x.turnBack 1 = ⟨x.x₁, x.x₂, x.x₃, -x.x₀⟩ := by
  rw [turnBack_succ, turnBack_zero]

theorem turnBack_two (x : CycloInt) : x.turnBack 2 = ⟨x.x₂, x.x₃, -x.x₀, -x.x₁⟩ := by
  rw [turnBack_succ, turnBack_one]

theorem turnBack_three (x : CycloInt) : x.turnBack 3 = ⟨x.x₃, -x.x₀, -x.x₁, -x.x₂⟩ := by
  rw [turnBack_succ, turnBack_two]

theorem complexHom_turnBack (x : CycloInt) (j : ℕ) :
    complexHom (x.turnBack j) = complexHom x * (eighthRoot ^ j)⁻¹ := by
  have h : eighthRoot ^ (7 * j) = (eighthRoot ^ j)⁻¹ := by
    refine eq_inv_of_mul_eq_one_left ?_
    rw [← pow_add, show 7 * j + j = 4 * (2 * j) by ring, pow_mul, eighthRoot_pow_four, pow_mul]
    norm_num
  rw [turnBack, map_mul, map_pow, complexHom_omega, h]

/-- Coefficients modulo two: if the sums of both quadruples are odd, one of four rotations of the second makes all
sums of corresponding coefficients equal. -/
theorem exists_rotation : ∀ a₀ a₁ a₂ a₃ b₀ b₁ b₂ b₃ : ZMod 2,
    a₀ + a₁ + a₂ + a₃ ≠ 0 → b₀ + b₁ + b₂ + b₃ ≠ 0 →
    (a₀ + b₀ = a₁ + b₁ ∧ a₁ + b₁ = a₂ + b₂ ∧ a₂ + b₂ = a₃ + b₃) ∨
    (a₀ + b₁ = a₁ + b₂ ∧ a₁ + b₂ = a₂ + b₃ ∧ a₂ + b₃ = a₃ + -b₀) ∨
    (a₀ + b₂ = a₁ + b₃ ∧ a₁ + b₃ = a₂ + -b₀ ∧ a₂ + -b₀ = a₃ + -b₁) ∨
    (a₀ + b₃ = a₁ + -b₀ ∧ a₁ + -b₀ = a₂ + -b₁ ∧ a₂ + -b₁ = a₃ + -b₂) := by
  decide +kernel

/-- For numbers prime to `δ` one of the four turns makes the sum divisible by `δ³`. -/
theorem exists_turn {x y : CycloInt} (hx : ¬delta ∣ x) (hy : ¬delta ∣ y) :
    ∃ j < 4, ofQuad QuadInt.root * delta ∣ x + y.turnBack j := by
  have hz (n : ℤ) : n % 2 = 0 ↔ (n : ZMod 2) = 0 := by
    rw [ZMod.intCast_zmod_eq_zero_iff_dvd, Int.dvd_iff_emod_eq_zero]
    rfl
  have he (m n : ℤ) : m % 2 = n % 2 ↔ (m : ZMod 2) = n := by
    rw [ZMod.intCast_eq_intCast_iff']
    rfl
  rw [delta_dvd_iff, hz] at hx hy
  push_cast at hx hy
  simp only [root_mul_delta_dvd_iff, he]
  rcases exists_rotation _ _ _ _ _ _ _ _ hx hy with h | h | h | h
  · exact ⟨0, by norm_num, by simpa using h⟩
  · exact ⟨1, by norm_num, by simpa [turnBack_one] using h⟩
  · exact ⟨2, by norm_num, by simpa [turnBack_two] using h⟩
  · exact ⟨3, by norm_num, by simpa [turnBack_three] using h⟩

/-- There is only one such turn. -/
theorem turn_unique {x y : CycloInt} (hy : ¬delta ∣ y) {i j : ℕ} (hi : i < 4) (hj : j < 4)
    (hxi : ofQuad QuadInt.root * delta ∣ x + y.turnBack i)
    (hxj : ofQuad QuadInt.root * delta ∣ x + y.turnBack j) : i = j := by
  rw [delta_dvd_iff] at hy
  rw [root_mul_delta_dvd_iff] at hxi hxj
  interval_cases i <;> interval_cases j <;> try rfl
  all_goals
    simp only [turnBack_zero, turnBack_one, turnBack_two, turnBack_three, add_x₀, add_x₁, add_x₂,
      add_x₃] at hxi hxj
    omega

/-- The turn is an even one exactly when `√2` divides the sum as it stands. -/
theorem root_dvd_add_iff {x y : CycloInt} (hy : ¬delta ∣ y) {j : ℕ} (hj : j < 4)
    (h : ofQuad QuadInt.root * delta ∣ x + y.turnBack j) :
    ofQuad QuadInt.root ∣ x + y ↔ j % 2 = 0 := by
  rw [delta_dvd_iff] at hy
  rw [root_mul_delta_dvd_iff] at h
  rw [root_dvd_iff]
  simp only [add_x₀, add_x₁, add_x₂, add_x₃] at h ⊢
  interval_cases j <;>
    simp only [turnBack_zero, turnBack_one, turnBack_two, turnBack_three] at h <;>
    omega

theorem absSq_turnBack (x : CycloInt) (j : ℕ) : (x.turnBack j).absSq = x.absSq := by
  rw [turnBack, absSq_mul, absSq_pow, show omega.absSq = 1 from rfl, one_pow, mul_one]

/-- If `δ³` divides a sum, the sum is even or all its coefficients are odd; which of the two it is shows in the sum of
the squared absolute values. -/
theorem root_mul_delta_sq_dvd_add_iff {x y : CycloInt} (hx : ¬delta ∣ x)
    (h : ofQuad QuadInt.root * delta ∣ x + y) :
    ofQuad QuadInt.root * delta ^ 2 ∣ x + y ↔ (x.absSq + y.absSq).a % 4 = 2 := by
  have ha := absSq_a_emod_four x
  have hb := absSq_a_emod_four y
  rw [delta_dvd_iff] at hx
  rw [root_mul_delta_dvd_iff] at h
  rw [root_mul_delta_sq_dvd_iff, QuadInt.add_a]
  simp only [add_x₀, add_x₁, add_x₂, add_x₃] at h ⊢
  have hw : (x.x₀ % 2 + x.x₁ % 2 + x.x₂ % 2 + x.x₃ % 2) % 2 = 1 := by omega
  obtain ⟨h₀, h₁, h₂⟩ := h
  -- Modulo two the coordinates of `y` are those of `x`, or all of them are the other ones.
  rcases Int.emod_two_eq_zero_or_one (x.x₀ + y.x₀) with hp | hp
  · have e₀ : y.x₀ % 2 = x.x₀ % 2 := by omega
    have e₁ : y.x₁ % 2 = x.x₁ % 2 := by omega
    have e₂ : y.x₂ % 2 = x.x₂ % 2 := by omega
    have e₃ : y.x₃ % 2 = x.x₃ % 2 := by omega
    rw [e₀, e₁, e₂, e₃] at hb
    have hsum : (x.absSq.a + y.absSq.a) % 4 = 2 := by
      generalize x.x₀ % 2 + x.x₁ % 2 + x.x₂ % 2 + x.x₃ % 2 = w at ha hb hw
      clear h₀ h₁ h₂ hp e₀ e₁ e₂ e₃ hx
      omega
    exact ⟨fun _ => hsum, fun _ => ⟨hp, by omega, by omega, by omega⟩⟩
  · have e₀ : y.x₀ % 2 = 1 - x.x₀ % 2 := by omega
    have e₁ : y.x₁ % 2 = 1 - x.x₁ % 2 := by omega
    have e₂ : y.x₂ % 2 = 1 - x.x₂ % 2 := by omega
    have e₃ : y.x₃ % 2 = 1 - x.x₃ % 2 := by omega
    have hs : 1 - x.x₀ % 2 + (1 - x.x₁ % 2) + (1 - x.x₂ % 2) + (1 - x.x₃ % 2) =
        4 - (x.x₀ % 2 + x.x₁ % 2 + x.x₂ % 2 + x.x₃ % 2) := by ring
    rw [e₀, e₁, e₂, e₃, hs] at hb
    have hsum : (x.absSq.a + y.absSq.a) % 4 = 0 := by
      generalize x.x₀ % 2 + x.x₁ % 2 + x.x₂ % 2 + x.x₃ % 2 = w at ha hb
      clear h₀ h₁ h₂ hp e₀ e₁ e₂ e₃ hx hw hs
      omega
    exact ⟨fun hc => by rw [hp] at hc; simp at hc, fun hc => by rw [hsum] at hc; simp at hc⟩

/-- The sum of the squared absolute values of two numbers prime to `δ` is even. -/
theorem absSq_add_even {x y : CycloInt} (hx : ¬delta ∣ x) (hy : ¬delta ∣ y) :
    (x.absSq + y.absSq).a % 2 = 0 ∧ (x.absSq + y.absSq).b % 2 = 0 := by
  have hb {z : CycloInt} (hz : ¬delta ∣ z) : z.absSq.b % 2 = 0 := by
    rw [delta_dvd_iff] at hz
    rw [absSq_b_emod_two, ← Int.even_iff, Int.even_mul, Int.even_iff, Int.even_iff]
    omega
  have hxa := absSq_a_emod_four x
  have hya := absSq_a_emod_four y
  have hxb := hb hx
  have hyb := hb hy
  rw [delta_dvd_iff] at hx hy
  rw [QuadInt.add_a, QuadInt.add_b]
  omega

end CliffordT.CycloInt

import CliffordT.Proofs.Ring.Cyclo

/-!
Division with remainder in `ℤ[√2]` and `ℤ[ω]` shrinks the size, so the Euclidean algorithm is never cut short.

A greatest common divisor divides both numbers and is a combination of them, exact division succeeds exactly for
multiples, and an element whose norm is prime is prime. `IsEuclidean` collects what is asked of such a ring; both rings have it
all, ties of the rounded quotient included.
-/

namespace CliffordT

open EuclideanDivision

/-! ### Nearest quotients -/

theorem nearestQuotient_bounds (a : ℤ) {n : ℤ} (hn : 0 < n) :
    -n ≤ 2 * (a - n * nearestQuotient a n) ∧ 2 * (a - n * nearestQuotient a n) < n := by
  have hdiv := Int.mul_fdiv_add_fmod (2 * a + n) (2 * n)
  have hlow := Int.fmod_nonneg_of_pos (2 * a + n) (show 0 < 2 * n by omega)
  have hhigh := Int.fmod_lt_of_pos (2 * a + n) (show 0 < 2 * n by omega)
  rw [nearestQuotient, if_neg (by omega)]
  generalize (2 * a + n).fdiv (2 * n) = q at hdiv ⊢
  generalize (2 * a + n).fmod (2 * n) = r at hdiv hlow hhigh
  constructor <;> linarith

theorem nearestQuotient_neg (a : ℤ) {n : ℤ} (hn : n < 0) :
    nearestQuotient a n = nearestQuotient (-a) (-n) := by
  rw [nearestQuotient, if_pos hn, nearestQuotient, if_neg (by omega), sub_eq_add_neg]

theorem four_mul_sq_nearestQuotient_le (a : ℤ) {n : ℤ} (hn : n ≠ 0) :
    4 * (a - n * nearestQuotient a n) ^ 2 ≤ n ^ 2 := by
  rcases lt_or_gt_of_ne hn with hneg | hpos
  · obtain ⟨hlow, hhigh⟩ := nearestQuotient_bounds (-a) (n := -n) (by omega)
    rw [nearestQuotient_neg a hneg]
    linarith [sq_le_sq' hlow hhigh.le]
  · obtain ⟨hlow, hhigh⟩ := nearestQuotient_bounds a hpos
    linarith [sq_le_sq' hlow hhigh.le]

/-! ### Rings whose division is Euclidean -/

/-- The Euclidean algorithm without any test that remainders shrink: it divides until there is no quotient, and ends with the
last divisor. A derivation is a run that comes to its end. -/
inductive Remainders {R : Type} (divRem? : R → R → Option (R × R)) : R → R → R → Prop where
  | last {x y : R} : divRem? x y = none → Remainders divRem? x y x
  | next {x y q r g : R} : divRem? x y = some (q, r) → Remainders divRem? y r g → Remainders divRem? x y g

/-- Division by anything but zero leaves a remainder of smaller norm, exact division succeeds for the multiples of a nonzero
divisor, and the Euclidean algorithm ends with a greatest common divisor. -/
structure IsEuclidean {R : Type} [CommRing R] (norm : R → ℤ) (divRem? : R → R → Option (R × R))
    (quotient? : R → R → Option R) (gcd : R → R → R) : Prop where
  divRem?_eq_none_iff (x y : R) : divRem? x y = none ↔ y = 0
  divRem?_spec {x y q r : R} : divRem? x y = some (q, r) → x = q * y + r ∧ |norm r| < |norm y|
  quotient?_eq_some_iff (x y q : R) : quotient? x y = some q ↔ y ≠ 0 ∧ x = q * y
  remainders_gcd (x y : R) : Remainders divRem? x y (gcd x y)
  gcd_dvd_left (x y : R) : gcd x y ∣ x
  gcd_dvd_right (x y : R) : gcd x y ∣ y
  dvd_gcd {d x y : R} : d ∣ x → d ∣ y → d ∣ gcd x y

/-- The division of a ring finds a remainder smaller than the divisor, and multiples are not smaller. -/
class LawfulDivision (R : Type) [CommRing R] [EuclideanDivision R] : Prop where
  zero_add_zero : (0 : R) + 0 = 0
  divRem?_eq_none_iff (x y : R) : divRem? x y = none ↔ y = 0
  divRem?_spec {x y q r : R} : divRem? x y = some (q, r) → x = q * y + r ∧ size r < size y
  size_le_mul (x y : R) : x * y ≠ 0 → size y ≤ size (x * y)

namespace LawfulDivision

-- A division brings a zero of its own, which `eq_zero_iff` identifies with that of the ring.
set_option linter.overlappingInstances false

variable {R : Type} [CommRing R] [EuclideanDivision R] [LawfulDivision R]

/-- The zero of the division is that of the ring. -/
theorem eq_zero_iff (x : R) : x = 0 ↔ x + x = x := by
  rw [add_eq_left, ← add_eq_left.1 (zero_add_zero (R := R))]

theorem zero_dvd_all {y : R} (h : y = 0) (x : R) : x ∣ y := by
  rw [eq_zero_iff, add_eq_left] at h
  rw [h]
  exact dvd_zero x

theorem gcd_spec (x y : R) : EuclideanDivision.gcd x y ∣ x ∧ EuclideanDivision.gcd x y ∣ y ∧
    ∃ a b, EuclideanDivision.gcd x y = a * x + b * y := by
  induction hs : size y using Nat.strong_induction_on generalizing x y with
  | _ s ih =>
    subst hs
    rw [EuclideanDivision.gcd]
    cases hdiv : divRem? x y with
    | none => exact ⟨dvd_rfl, zero_dvd_all ((divRem?_eq_none_iff x y).1 hdiv) x, 1, y - y, by ring⟩
    | some qr =>
      obtain ⟨q, r⟩ := qr
      obtain ⟨hx, hlt⟩ := divRem?_spec hdiv
      obtain ⟨hy, hr, a, b, hcomb⟩ := ih _ hlt y r rfl
      dsimp only
      rw [if_pos hlt]
      refine ⟨?_, hy, b, a - b * q, ?_⟩
      · rw [hx]
        exact dvd_add (hy.mul_left q) hr
      · rw [hcomb, hx]
        ring

theorem gcd_dvd_left (x y : R) : EuclideanDivision.gcd x y ∣ x := (gcd_spec x y).1

theorem gcd_dvd_right (x y : R) : EuclideanDivision.gcd x y ∣ y := (gcd_spec x y).2.1

theorem dvd_gcd {d x y : R} (hx : d ∣ x) (hy : d ∣ y) : d ∣ EuclideanDivision.gcd x y := by
  obtain ⟨a, b, h⟩ := (gcd_spec x y).2.2
  rw [h]
  exact dvd_add (hx.mul_left a) (hy.mul_left b)

theorem isBezout : IsBezout R := by
  rw [IsBezout.iff_span_pair_isPrincipal]
  refine fun x y => ⟨EuclideanDivision.gcd x y, le_antisymm ?_ ?_⟩
  · rw [Ideal.submodule_span_eq, Ideal.span_le]
    rintro z (rfl | rfl)
    · exact Ideal.mem_span_singleton.2 (gcd_dvd_left _ _)
    · exact Ideal.mem_span_singleton.2 (gcd_dvd_right _ _)
  · obtain ⟨a, b, h⟩ := (gcd_spec x y).2.2
    rw [Ideal.submodule_span_eq, Ideal.span_singleton_le_iff_mem, Ideal.mem_span_pair]
    exact ⟨a, b, h.symm⟩

/-- Let an involution fix `d`, and let `d` divide the product of `w` with its image but not their difference. Then the
greatest common divisor of `d` and `w` lies strictly between one and `d`. -/
theorem gcd_proper (σ : R →+* R) (hσ : ∀ x, σ (σ x) = x) {d w : R} (hd : σ d = d) (hmul : d ∣ w * σ w)
    (hsub : ¬d ∣ w - σ w) : ¬IsUnit (EuclideanDivision.gcd d w) ∧ ¬d ∣ EuclideanDivision.gcd d w := by
  have himage {x : R} (h : d ∣ x) : d ∣ σ x := by
    rw [← hd]
    exact map_dvd σ h
  have hw : ¬d ∣ w := fun h => hsub (dvd_sub h (himage h))
  refine ⟨fun hunit => ?_, fun h => hw (h.trans (gcd_dvd_right d w))⟩
  obtain ⟨a, b, hcomb⟩ := (gcd_spec d w).2.2
  obtain ⟨c, hc⟩ := hunit.exists_left_inv
  have hcoprime : IsCoprime d w := ⟨c * a, c * b, by rw [← hc, hcomb]; ring⟩
  have hdvd := himage (hcoprime.dvd_of_dvd_mul_left hmul)
  rw [hσ] at hdvd
  exact hw hdvd

/-- Exact division succeeds for the multiples of a nonzero divisor, with the one quotient there is. -/
theorem exactQuotient?_eq_some_iff [IsDomain R] [DecidableEq R] (x y q : R) :
    exactQuotient? x y = some q ↔ y ≠ 0 ∧ x = q * y := by
  rw [exactQuotient?]
  cases hdiv : divRem? x y with
  | none => simp [(divRem?_eq_none_iff x y).1 hdiv]
  | some qr =>
    obtain ⟨p, r⟩ := qr
    obtain ⟨hx, hlt⟩ := divRem?_spec hdiv
    have hy : y ≠ 0 := fun h => by
      rw [(divRem?_eq_none_iff x y).2 h] at hdiv
      cases hdiv
    dsimp only
    split
    · next hr =>
      rw [eq_zero_iff, add_eq_left] at hr
      rw [Option.some_inj, hx, hr, add_zero]
      refine ⟨fun h => ⟨hy, by rw [h]⟩, fun h => ?_⟩
      rw [Ne, eq_zero_iff, add_eq_left] at hy
      exact @mul_right_cancel₀ R _ MulZeroClass.toZero _ _ _ _ hy h.2
    · next hr =>
      refine ⟨fun h => (by cases h), fun h => absurd hlt ?_⟩
      have hmul : r = (q - p) * y := by linear_combination h.2 - hx
      rw [hmul] at hr ⊢
      exact not_lt.2 (size_le_mul _ _ hr)

/-- As remainders shrink, the algorithm goes on until there is no quotient. -/
theorem remainders_gcd (x y : R) : Remainders divRem? x y (EuclideanDivision.gcd x y) := by
  induction hs : size y using Nat.strong_induction_on generalizing x y with
  | _ s ih =>
    subst hs
    rw [EuclideanDivision.gcd]
    cases hdiv : divRem? x y with
    | none => exact .last hdiv
    | some qr =>
      obtain ⟨q, r⟩ := qr
      have hlt := (divRem?_spec hdiv).2
      dsimp only
      rw [if_pos hlt]
      exact .next hdiv (ih _ hlt y r rfl)

theorem isEuclidean [IsDomain R] [DecidableEq R] {norm : R → ℤ} (hnorm : ∀ x, size x = (norm x).natAbs) :
    IsEuclidean norm divRem? exactQuotient? (EuclideanDivision.gcd : R → R → R) where
  divRem?_eq_none_iff x y := by rw [divRem?_eq_none_iff, eq_zero_iff, add_eq_left]
  divRem?_spec h := by
    obtain ⟨hx, hlt⟩ := divRem?_spec h
    rw [hnorm, hnorm] at hlt
    exact ⟨hx, by rwa [Int.abs_eq_natAbs, Int.abs_eq_natAbs, Nat.cast_lt]⟩
  quotient?_eq_some_iff x y q := by rw [exactQuotient?_eq_some_iff, Ne, Ne, eq_zero_iff, add_eq_left]
  remainders_gcd := remainders_gcd
  gcd_dvd_left := gcd_dvd_left
  gcd_dvd_right := gcd_dvd_right
  dvd_gcd := dvd_gcd

end LawfulDivision

/-! ### The two rings -/

namespace QuadInt

theorem four_mul_norm_le {e : QuadInt} {n : ℤ} (ha : 4 * e.a ^ 2 ≤ n ^ 2) (hb : 4 * e.b ^ 2 ≤ n ^ 2) :
    4 * |e.norm| ≤ 2 * n ^ 2 := by
  rw [← abs_of_pos (show (0 : ℤ) < 4 by norm_num), ← abs_mul, abs_le, norm]
  constructor <;> linarith [sq_nonneg e.a, sq_nonneg e.b]

theorem divRem?_spec {x y q r : QuadInt} (h : x.divRem? y = some (q, r)) :
    x = q * y + r ∧ r.norm.natAbs < y.norm.natAbs := by
  rw [divRem?] at h
  dsimp only at h
  split at h
  · cases h
  · next hn =>
    obtain ⟨rfl, rfl⟩ := Prod.mk.inj (Option.some.inj h)
    refine ⟨by ring, ?_⟩
    have ha := four_mul_sq_nearestQuotient_le (x * y.bullet).a hn
    have hb := four_mul_sq_nearestQuotient_le (x * y.bullet).b hn
    generalize nearestQuotient (x * y.bullet).a y.norm = qa at ha ⊢
    generalize nearestQuotient (x * y.bullet).b y.norm = qb at hb ⊢
    have he : (x - ⟨qa, qb⟩ * y) * y.bullet =
        ⟨(x * y.bullet).a - y.norm * qa, (x * y.bullet).b - y.norm * qb⟩ := by
      rw [sub_mul, mul_assoc, mul_bullet]
      ext <;> simp <;> ring
    have hbound := four_mul_norm_le (e := ⟨_, _⟩) ha hb
    rw [← he, norm_mul, norm_bullet, abs_mul] at hbound
    have hpos : 0 < |y.norm| := abs_pos.2 hn
    rw [← sq_abs y.norm] at hbound
    have hlt : |(x - ⟨qa, qb⟩ * y).norm| < |y.norm| := by
      refine lt_of_mul_lt_mul_right ?_ hpos.le
      linarith [mul_pos hpos hpos]
    zify
    exact hlt

instance : LawfulDivision QuadInt where
  zero_add_zero := rfl
  divRem?_eq_none_iff x y := by
    rw [← norm_eq_zero_iff]
    simp [EuclideanDivision.divRem?, divRem?]
  divRem?_spec := divRem?_spec
  size_le_mul x y h := by
    refine Nat.le_of_dvd (Int.natAbs_pos.2 (norm_ne_zero h)) (Int.natAbs_dvd_natAbs.2 ?_)
    exact norm_dvd (dvd_mul_left y x)

instance : IsBezout QuadInt := LawfulDivision.isBezout

theorem quotient?_eq_some_iff (x y q : QuadInt) : x.quotient? y = some q ↔ y ≠ 0 ∧ x = q * y :=
  LawfulDivision.exactQuotient?_eq_some_iff x y q

end QuadInt

namespace CycloInt

/-- The sum of four squares within bounds is smaller than the largest one, unless all terms are extreme; then the
other coordinate of the squared absolute value does not vanish. -/
theorem norm_lt_of_bounds {e : CycloInt} {n : ℤ} (hn : 0 < n) (h₀ : -n ≤ 2 * e.x₀ ∧ 2 * e.x₀ < n)
    (h₁ : -n ≤ 2 * e.x₁ ∧ 2 * e.x₁ < n) (h₂ : -n ≤ 2 * e.x₂ ∧ 2 * e.x₂ < n) (h₃ : -n ≤ 2 * e.x₃ ∧ 2 * e.x₃ < n) :
    e.norm < n ^ 4 := by
  have hsq {t : ℤ} (h : -n ≤ t ∧ t < n) : t ^ 2 ≤ n ^ 2 ∧ (t ^ 2 = n ^ 2 → t = -n) := by
    refine ⟨sq_le_sq' h.1 h.2.le, fun heq => ?_⟩
    rcases sq_eq_sq_iff_eq_or_eq_neg.1 heq with h' | h'
    · omega
    · exact h'
  obtain ⟨s₀, t₀⟩ := hsq h₀
  obtain ⟨s₁, t₁⟩ := hsq h₁
  obtain ⟨s₂, t₂⟩ := hsq h₂
  obtain ⟨s₃, t₃⟩ := hsq h₃
  have ha := absSq_a e
  have hnonneg := absSq_a_nonneg e
  have hle : e.absSq.a ≤ n ^ 2 := by linarith
  rw [CycloInt.norm, QuadInt.norm]
  rcases hle.lt_or_eq with hlt | heq
  · have hsquare := mul_self_lt_mul_self hnonneg hlt
    linarith [mul_self_nonneg e.absSq.b]
  · have e₀ := t₀ (by linarith)
    have e₁ := t₁ (by linarith)
    have e₂ := t₂ (by linarith)
    have e₃ := t₃ (by linarith)
    have hb : 4 * e.absSq.b = 2 * n ^ 2 := by
      have : 4 * e.absSq.b = (2 * e.x₁) * (2 * e.x₀) - (2 * e.x₃) * (2 * e.x₀) + (2 * e.x₂) * (2 * e.x₁) +
          (2 * e.x₃) * (2 * e.x₂) := by
        simp only [absSq]
        ring
      rw [this, e₀, e₁, e₂, e₃]
      ring
    have hpos : 0 < e.absSq.b := by linarith [pow_pos hn 2]
    rw [heq]
    linarith [mul_pos hpos hpos]

theorem mul_cofactor (y : CycloInt) : y * (y.conj * y.bullet * y.bullet.conj) = (y.norm : CycloInt) := by
  have h : y * (y.conj * y.bullet * y.bullet.conj) = y * y.conj * (y.bullet * y.bullet.conj) := by ring
  rw [h, mul_conj, mul_conj, absSq_bullet, ← ofQuad_mul, QuadInt.mul_bullet, ofQuad_intCast, CycloInt.norm]

theorem norm_cofactor (y : CycloInt) : (y.conj * y.bullet * y.bullet.conj).norm = y.norm ^ 3 := by
  rw [norm_mul, norm_mul, norm_conj, norm_conj, norm_bullet]
  ring

theorem divRem?_spec {x y q r : CycloInt} (h : x.divRem? y = some (q, r)) :
    x = q * y + r ∧ r.norm.natAbs < y.norm.natAbs := by
  rw [divRem?] at h
  dsimp only at h
  split at h
  · cases h
  · next hn =>
    obtain ⟨rfl, rfl⟩ := Prod.mk.inj (Option.some.inj h)
    refine ⟨by ring, ?_⟩
    have hpos : 0 < y.norm := lt_of_le_of_ne (norm_nonneg y) (Ne.symm hn)
    have hmul := mul_cofactor y
    have hnorm := norm_cofactor y
    generalize y.conj * y.bullet * y.bullet.conj = cofactor at hmul hnorm ⊢
    have h₀ := nearestQuotient_bounds (x * cofactor).x₀ hpos
    have h₁ := nearestQuotient_bounds (x * cofactor).x₁ hpos
    have h₂ := nearestQuotient_bounds (x * cofactor).x₂ hpos
    have h₃ := nearestQuotient_bounds (x * cofactor).x₃ hpos
    generalize nearestQuotient (x * cofactor).x₀ y.norm = q₀ at h₀ ⊢
    generalize nearestQuotient (x * cofactor).x₁ y.norm = q₁ at h₁ ⊢
    generalize nearestQuotient (x * cofactor).x₂ y.norm = q₂ at h₂ ⊢
    generalize nearestQuotient (x * cofactor).x₃ y.norm = q₃ at h₃ ⊢
    have he : (x - ⟨q₀, q₁, q₂, q₃⟩ * y) * cofactor =
        ⟨(x * cofactor).x₀ - y.norm * q₀, (x * cofactor).x₁ - y.norm * q₁, (x * cofactor).x₂ - y.norm * q₂,
          (x * cofactor).x₃ - y.norm * q₃⟩ := by
      rw [sub_mul, mul_assoc, hmul]
      ext <;> simp <;> ring
    have hlt := norm_lt_of_bounds (e := ⟨_, _, _, _⟩) hpos h₀ h₁ h₂ h₃
    rw [← he, norm_mul, hnorm] at hlt
    have hr : (x - ⟨q₀, q₁, q₂, q₃⟩ * y).norm < y.norm := by
      have hcube : 0 < y.norm ^ 3 := by positivity
      exact lt_of_mul_lt_mul_right (hlt.trans_eq (by ring)) hcube.le
    exact Int.natAbs_lt_natAbs_of_nonneg_of_lt (norm_nonneg _) hr

instance : LawfulDivision CycloInt where
  zero_add_zero := rfl
  divRem?_eq_none_iff x y := by
    rw [← norm_eq_zero_iff]
    simp [EuclideanDivision.divRem?, divRem?]
  divRem?_spec := divRem?_spec
  size_le_mul x y h := by
    have hne : (x * y).norm ≠ 0 := mt (norm_eq_zero_iff _).1 h
    exact Nat.le_of_dvd (Int.natAbs_pos.2 hne) (Int.natAbs_dvd_natAbs.2 (norm_dvd (dvd_mul_left y x)))

instance : IsBezout CycloInt := LawfulDivision.isBezout

end CycloInt

/-- Division and greatest common divisors are Euclidean in both rings. In `ℤ[ω]` norms are not negative, and the remainder has the
smaller norm without a sign. -/
theorem isEuclidean_quad_cyclo :
    IsEuclidean QuadInt.norm QuadInt.divRem? QuadInt.quotient? QuadInt.gcd ∧
      IsEuclidean CycloInt.norm CycloInt.divRem? CycloInt.quotient? CycloInt.gcd ∧
      ∀ x y q r : CycloInt, x.divRem? y = some (q, r) → r.norm < y.norm := by
  have hquad : IsEuclidean QuadInt.norm QuadInt.divRem? QuadInt.quotient? QuadInt.gcd :=
    LawfulDivision.isEuclidean fun _ => rfl
  have hcyclo : IsEuclidean CycloInt.norm CycloInt.divRem? CycloInt.quotient? CycloInt.gcd :=
    LawfulDivision.isEuclidean fun _ => rfl
  refine ⟨hquad, hcyclo, fun x y q r h => ?_⟩
  have hlt := (hcyclo.divRem?_spec h).2
  rwa [abs_of_nonneg (CycloInt.norm_nonneg r), abs_of_nonneg (CycloInt.norm_nonneg y)] at hlt

end CliffordT

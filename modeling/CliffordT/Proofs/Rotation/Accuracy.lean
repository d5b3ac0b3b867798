import CliffordT.Proofs.Rotation.Distance
import CliffordT.Proofs.Rotation.Options
import CliffordT.Proofs.Rotation.Search
import CliffordT.Proofs.Rotation.Unbounded

/-!
The accuracy of a verified approximation.

A word is accepted if its computed distance is at most the computed tolerance, both at twice the digits of the
search. Everything that was computed on the way is off by roundings of numbers of the size of the angle, and the digits by
which the precision is widened for a large angle outweigh that size.
-/

namespace CliffordT

open scoped Matrix.Norms.L2Operator

/-! ### The target -/

/-- The relative error that all roundings of a sine add up to. -/
noncomputable def trigDrift (p : ℕ) : ℝ := drift p (Approx.trigRoundings p)

theorem trigDrift_nonneg (p : ℕ) : 0 ≤ trigDrift p := drift_nonneg p _

theorem drift_le_trigDrift {p k : ℕ} (h : k ≤ 3 * p + 400) : drift p k ≤ trigDrift p := drift_mono p h

/-- Sine and cosine of a number that is near the argument. -/
theorem abs_sinCos_sub_le_of_near {p : ℕ} (hp : 15 ≤ p) {x : Approx p} {v : ℝ}
    (hx : Approx.Near (Approx.trigRoundings p) |v| x v) (h : trigDrift p * (32 * |v| + 405) ≤ 1) :
    |(Approx.sinCos x).1.toReal - Real.sin v| ≤ trigDrift p * (8 * |v| + 86) ∧
      |(Approx.sinCos x).2.toReal - Real.cos v| ≤ trigDrift p * (8 * |v| + 86) := by
  have hd := trigDrift_nonneg p
  have hv := abs_nonneg v
  have hdv := mul_nonneg hd hv
  have herror : |x.toReal - v| ≤ trigDrift p * |v| := hx.error
  have hsize : |x.toReal| ≤ 2 * |v| := by
    have habs : |x.toReal| ≤ (1 + trigDrift p) * |v| := hx.abs_le
    have : trigDrift p * |v| ≤ 1 * |v| := mul_le_mul_of_nonneg_right (by linarith) hv
    linarith
  have hmul := mul_le_mul_of_nonneg_left hsize hd
  obtain ⟨hsin, hcos⟩ := Approx.abs_sinCos_sub_le hp x (by
    change trigDrift p * (8 * |x.toReal| + 8) ≤ 1
    linarith)
  have hbound : trigDrift p * (3 * |x.toReal| + 86) + trigDrift p * |v| ≤ trigDrift p * (8 * |v| + 86) := by linarith
  constructor
  · exact (abs_sub_le _ _ _).trans
      ((add_le_add hsin ((Real.abs_sin_sub_sin_le _ _).trans herror)).trans hbound)
  · exact (abs_sub_le _ _ _).trans
      ((add_le_add hcos ((Real.abs_cos_sub_cos_le _ _).trans herror)).trans hbound)

theorem near_half {p k : ℕ} {x : Approx p} {v : ℝ} (hx : Approx.Near k |v| x v) :
    Approx.Near k |v / 2| (Scalar.half x) (v / 2) := by
  have := hx.shift (-1)
  rwa [zpow_neg_one, ← div_eq_mul_inv, ← div_eq_mul_inv, ← abs_two, ← abs_div, abs_two] at this

theorem abs_sinCos_half_sub_le {p : ℕ} (hp : 15 ≤ p) (l : Literal) (h : trigDrift p * (16 * |l.value| + 405) ≤ 1) :
    |(Approx.sinCos (Scalar.half (l.eval : Approx p))).1.toReal - Real.sin (l.value / 2)| ≤
        trigDrift p * (4 * |l.value| + 86) ∧
      |(Approx.sinCos (Scalar.half (l.eval : Approx p))).2.toReal - Real.cos (l.value / 2)| ≤
        trigDrift p * (4 * |l.value| + 86) := by
  have hhalf : |l.value / 2| = |l.value| / 2 := by rw [abs_div, abs_two]
  have hnear := (near_half (l.eval_near (p := p) (by omega))).mono (k := Approx.trigRoundings p)
    (by rw [Approx.trigRoundings]; omega) le_rfl
  have := abs_sinCos_sub_le_of_near hp hnear (by rw [hhalf]; linarith)
  rwa [hhalf, show 8 * (|l.value| / 2) = 4 * |l.value| by ring] at this

/-! ### The differences -/

/-- The difference of a computed entry and a computed part of the target. -/
theorem abs_sub_sub_sub_le {p : ℕ} (hp : 1 ≤ p) {x t : Approx p} {r s d : ℝ} (hx : Approx.Near 5 (5 / 2) x r)
    (ht : |t.toReal - s| ≤ d) (hs : |s| ≤ 1) (hd : d ≤ 1) (hdrift : trigDrift p ≤ 1 / 10) :
    |(x - t).toReal - (r - s)| ≤ d + 10 * trigDrift p := by
  have hfive : drift p 5 ≤ trigDrift p := drift_le_trigDrift (by omega)
  have hulp : ulp p ≤ trigDrift p := drift_one p ▸ drift_le_trigDrift (by omega)
  have hround := Approx.abs_sub_sub_le hp x t
  have hsize : |x.toReal - t.toReal| ≤ 5 := by
    have hx' := hx.error
    have hr := hx.size
    rw [abs_le] at hx' hr ht hs ⊢
    constructor <;> linarith
  have := mul_le_mul hulp hsize (abs_nonneg _) (trigDrift_nonneg p)
  have hx' := hx.error
  rw [abs_le] at hx' ht hround ⊢
  constructor <;> linarith

theorem norm_toComplex_sub_le {p : ℕ} (z : Approx p × Approx p) {w : ℂ} {d : ℝ} (hre : |z.1.toReal - w.re| ≤ d)
    (him : |z.2.toReal - w.im| ≤ d) : ‖w - Approx.toComplex z‖ ≤ 2 * d := by
  have := Complex.norm_le_abs_re_add_abs_im (w - Approx.toComplex z)
  rw [Complex.sub_re, Complex.sub_im, abs_sub_comm w.re, abs_sub_comm w.im] at this
  linarith [show |(Approx.toComplex z).re - w.re| ≤ d from hre, show |(Approx.toComplex z).im - w.im| ≤ d from him]

/-- Four numbers that are near four others are not much longer. -/
theorem sqrt_sum_sq_le (v w : Fin 4 → ℂ) {d : ℝ} (h : ∀ i, ‖v i - w i‖ ≤ d) :
    √(∑ i, ‖v i‖ ^ 2) ≤ √(∑ i, ‖w i‖ ^ 2) + 2 * d := by
  have hd : 0 ≤ d := (norm_nonneg _).trans (h 0)
  have htri := norm_add_le (WithLp.toLp 2 w : EuclideanSpace ℂ (Fin 4)) (WithLp.toLp 2 (v - w))
  rw [← WithLp.toLp_add, add_sub_cancel, EuclideanSpace.norm_eq, EuclideanSpace.norm_eq, EuclideanSpace.norm_eq] at htri
  refine htri.trans (add_le_add le_rfl ?_)
  rw [Real.sqrt_le_left (by positivity)]
  calc ∑ i, ‖(v - w) i‖ ^ 2 ≤ ∑ _i : Fin 4, d ^ 2 :=
        Finset.sum_le_sum fun i _ => pow_le_pow_left₀ (norm_nonneg _) (h i) 2
    _ = (2 * d) ^ 2 := by
        rw [Finset.sum_const, Finset.card_univ, Fintype.card_fin, nsmul_eq_mul]
        push_cast
        ring

namespace QubitOp

/-- The computed entries of an operator less those of a rotation of which half the angle has the given sine and cosine. -/
def difference {p : ℕ} (u : QubitOp ℕ) (sin cos : Approx p) : Square (Approx p × Approx p) where
  m₀₀ := ((CycloFrac.eval u.entries.m₀₀).1 - cos, (CycloFrac.eval u.entries.m₀₀).2 - -sin)
  m₀₁ := ((CycloFrac.eval u.entries.m₀₁).1 - 0, (CycloFrac.eval u.entries.m₀₁).2 - 0)
  m₁₀ := ((CycloFrac.eval u.entries.m₁₀).1 - 0, (CycloFrac.eval u.entries.m₁₀).2 - 0)
  m₁₁ := ((CycloFrac.eval u.entries.m₁₁).1 - cos, (CycloFrac.eval u.entries.m₁₁).2 - sin)

theorem distance_eq {p : ℕ} (u : QubitOp ℕ) (theta : Approx p) :
    u.distance theta = operatorNorm (u.difference (Approx.sinCos (Scalar.half theta)).1
      (Approx.sinCos (Scalar.half theta)).2) := rfl

/-- For an operator of determinant one the squares of all four exact differences add up to twice the square of the
distance. -/
theorem sum_sq_eq {u : QubitOp ℕ} (hphase : u.phase = 0) (theta : ℝ) :
    ∑ i, ‖(![u.entries.m₀₀.value - ⟨Real.cos (theta / 2), -Real.sin (theta / 2)⟩, u.entries.m₁₀.value - ⟨0, 0⟩,
      u.entries.m₀₁.value - ⟨0, 0⟩,
      u.entries.m₁₁.value - ⟨Real.cos (theta / 2), Real.sin (theta / 2)⟩] : Fin 4 → ℂ) i‖ ^ 2 =
      2 * ‖u.matrix - rotation theta‖ ^ 2 := by
  have hzero : (⟨0, 0⟩ : ℂ) = 0 := rfl
  have hconj : (starRingEnd ℂ) u.z.value - ⟨Real.cos (theta / 2), Real.sin (theta / 2)⟩ =
      (starRingEnd ℂ) (u.z.value - ⟨Real.cos (theta / 2), -Real.sin (theta / 2)⟩) := by
    rw [map_sub]
    congr 1
    apply Complex.ext <;> simp
  rw [matrix_eq, hphase]
  simp only [Fin.val_zero, pow_zero, mul_one]
  rw [norm_sub_rotation_sq, Fin.sum_univ_four]
  simp only [entries, hphase, hzero, Matrix.cons_val, RootFrac.value_neg, CycloFrac.value_timesOmegaPow,
    CycloFrac.value_conj, Fin.val_zero, Nat.cast_zero, zpow_zero, mul_one, sub_zero, norm_neg, hconj, RCLike.norm_conj]
  ring

variable {p : ℕ} {u : QubitOp ℕ}

/-- The exact distance is at most the root of half the computed squares and the errors of the entries. -/
theorem norm_sub_rotation_le (hp : 1 ≤ p) (hu : u.isUnitary = true) (hphase : u.phase = 0) {theta d : ℝ}
    {sin cos : Approx p} (hsin : |sin.toReal - Real.sin (theta / 2)| ≤ d)
    (hcos : |cos.toReal - Real.cos (theta / 2)| ≤ d) (hd : d ≤ 1) (hdrift : trigDrift p ≤ 1 / 10) :
    ‖u.matrix - rotation theta‖ ≤
      √((‖Approx.toComplex (u.difference sin cos).m₀₀‖ ^ 2 + ‖Approx.toComplex (u.difference sin cos).m₁₀‖ ^ 2 +
        ‖Approx.toComplex (u.difference sin cos).m₀₁‖ ^ 2 + ‖Approx.toComplex (u.difference sin cos).m₁₁‖ ^ 2) / 2) +
        3 * (d + 10 * trigDrift p) := by
  have hd0 : 0 ≤ d := (abs_nonneg _).trans hsin
  have hnegsin : |(-sin).toReal - -Real.sin (theta / 2)| ≤ d := by
    rwa [Approx.toReal_neg, neg_sub_neg, abs_sub_comm]
  have hzero : |(0 : Approx p).toReal - 0| ≤ d := by rwa [Approx.toReal_zero, sub_zero, abs_zero]
  have hsin1 := Real.abs_sin_le_one (theta / 2)
  have hcos1 := Real.abs_cos_le_one (theta / 2)
  have hnegsin1 : |-Real.sin (theta / 2)| ≤ 1 := by rwa [abs_neg]
  obtain ⟨h₀₀, h₀₁, h₁₀, h₁₁⟩ := bounded_entries hu
  have hnear := sqrt_sum_sq_le
    ![u.entries.m₀₀.value - ⟨Real.cos (theta / 2), -Real.sin (theta / 2)⟩, u.entries.m₁₀.value - ⟨0, 0⟩,
      u.entries.m₀₁.value - ⟨0, 0⟩, u.entries.m₁₁.value - ⟨Real.cos (theta / 2), Real.sin (theta / 2)⟩]
    ![Approx.toComplex (u.difference sin cos).m₀₀, Approx.toComplex (u.difference sin cos).m₁₀,
      Approx.toComplex (u.difference sin cos).m₀₁, Approx.toComplex (u.difference sin cos).m₁₁]
    (d := 2 * (d + 10 * trigDrift p)) (by
      intro i
      fin_cases i
      · exact norm_toComplex_sub_le _ (abs_sub_sub_sub_le hp (h₀₀.re_near hp) hcos hcos1 hd hdrift)
          (abs_sub_sub_sub_le hp (h₀₀.im_near hp) hnegsin hnegsin1 hd hdrift)
      · exact norm_toComplex_sub_le _ (abs_sub_sub_sub_le hp (h₁₀.re_near hp) hzero (by norm_num) hd hdrift)
          (abs_sub_sub_sub_le hp (h₁₀.im_near hp) hzero (by norm_num) hd hdrift)
      · exact norm_toComplex_sub_le _ (abs_sub_sub_sub_le hp (h₀₁.re_near hp) hzero (by norm_num) hd hdrift)
          (abs_sub_sub_sub_le hp (h₀₁.im_near hp) hzero (by norm_num) hd hdrift)
      · exact norm_toComplex_sub_le _ (abs_sub_sub_sub_le hp (h₁₁.re_near hp) hcos hcos1 hd hdrift)
          (abs_sub_sub_sub_le hp (h₁₁.im_near hp) hsin hsin1 hd hdrift))
  rw [sum_sq_eq hphase, Fin.sum_univ_four] at hnear
  simp only [Matrix.cons_val] at hnear
  -- Both sides are divided by `√2`, which leaves at most three of the four errors.
  have hroot : (4 : ℝ) / 3 ≤ √2 := Real.le_sqrt_of_sq_le (by norm_num)
  have htotal : 0 ≤ d + 10 * trigDrift p := by linarith [trigDrift_nonneg p]
  rw [Real.sqrt_mul zero_le_two, Real.sqrt_sq (norm_nonneg _)] at hnear
  rw [Real.sqrt_div' _ zero_le_two, ← sub_le_iff_le_add, le_div_iff₀ (by positivity)]
  have := mul_le_mul_of_nonneg_left hroot htotal
  linarith

/-- The computed distance of an operator of determinant one is not much below its distance. -/
theorem distance_ge (hp : 15 ≤ p) (hu : u.isUnitary = true) (hphase : u.phase = 0) (l : Literal)
    (h : trigDrift p * (16 * |l.value| + 405) ≤ 1) :
    (1 - trigDrift p) ^ 2 * (‖u.matrix - rotation l.value‖ - trigDrift p * (12 * |l.value| + 300)) ≤
      (u.distance (l.eval : Approx p)).toReal := by
  have hd := trigDrift_nonneg p
  have hdv := mul_nonneg hd (abs_nonneg l.value)
  obtain ⟨hsin, hcos⟩ := abs_sinCos_half_sub_le hp l h
  have hle := norm_sub_rotation_le (by omega) hu hphase hsin hcos (by linarith) (by linarith)
  have hnine : drift p 9 ≤ trigDrift p := drift_le_trigDrift (by omega)
  have hge := Approx.operatorNorm_ge (by omega) (by linarith)
    (u.difference (Approx.sinCos (Scalar.half (l.eval : Approx p))).1 (Approx.sinCos (Scalar.half l.eval)).2)
  rw [distance_eq]
  refine le_trans ?_ hge
  refine (mul_le_mul_of_nonneg_left (by linarith) (sq_nonneg _)).trans
    (mul_le_mul_of_nonneg_right ?_ (Real.sqrt_nonneg _))
  exact pow_le_pow_left₀ (by linarith) (by linarith) 2

end QubitOp

/-! ### The verified word -/

open Exponent QubitOp

variable {E : Type} [Exponent E]

/-- If the word is checked, then its computed distance was found to be within the computed tolerance. -/
theorem exists_verified {o : Options} {a : Approximation} (h : approximateOver E o = .ok a) (hverify : o.verify = true) :
    o.validate = .ok () ∧ Search.verify E o o.precision a.word = .ok () := by
  simp only [approximateOver, bind, Except.bind] at h
  split at h
  · cases h
  · next hvalid =>
    refine ⟨hvalid, ?_⟩
    split at h
    · cases h
    · next found hrun =>
      obtain ⟨k, candidate, tally⟩ := found
      dsimp only at h
      split at h
      · cases h
      · next word hword =>
        rw [if_pos hverify] at h
        split at h
        · cases h
        · next hok =>
          cases h
          exact hok

theorem verify_le {o : Options} {c : Precision} {word : GateWord} (hp : 2 ≤ c.raised.bits)
    (h : Search.verify E o c word = .ok ()) :
    ((ofWord word : QubitOp E).distance (o.theta.eval : Approx c.raised.bits)).toReal ≤
      (o.epsilon.eval : Approx c.raised.bits).toReal := by
  rw [Search.verify] at h
  split at h
  · cases h
  · next hless =>
    rw [Scalar.less, decide_eq_true_eq] at hless
    rw [← not_lt]
    exact fun hlt => hless ((Approx.order_eq_lt_iff hp _ _).2 hlt)

/-- The same for exponents of any size. -/
theorem distance_le_of_verified {o : Options} {a : Approximation} (h : approximateOver E o = .ok a)
    (hE : Stores E (2 * (a.exponent + Synthesis.searchDepth))) {c : Precision} (hp : 2 ≤ c.raised.bits)
    (hchecked : Search.verify E o c a.word = .ok ()) :
    ((ofWord a.word : QubitOp ℕ).distance (o.theta.eval : Approx c.raised.bits)).toReal ≤
      (o.epsilon.eval : Approx c.raised.bits).toReal := by
  have hspec := spec_of_approximate hE h
  have hdepth := hspec.depth_le
  have hle := verify_le hp hchecked
  rwa [← distance_unbounded (hE.of_le (by rw [Synthesis.searchDepth]; omega)), hspec.unbounded_ofWord] at hle

namespace Options

/-- At the digits that are derived from a request, the errors of the target are small. -/
theorem trigDrift_sine_le {o : Options} (h : o.digits = none) (hfits : o.theta.Fits) :
    trigDrift o.precision.bits * (16 * |o.theta.value| + 405) ≤ 2 ^ (-10 : ℤ) := by
  have hown := o.epsilon.one_le_fractionDigits
  obtain ⟨n, hn, hsize, hextra⟩ := Literal.exists_size hfits
  exact (mul_le_mul_of_nonneg_left hsize (trigDrift_nonneg _)).trans
    (Precision.drift_sine_le (digits_precision h) (by omega) hextra hn)

/-- At twice the digits, all errors together are below the bits in hand. -/
theorem trigDrift_le {o : Options} (h : o.digits = none) (hfits : o.theta.Fits) :
    trigDrift o.precision.raised.bits * (16 * |o.theta.value| + 405) ≤ 2 ^ (-(o.precision.bits - 32 : ℤ)) := by
  have hown := o.epsilon.one_le_fractionDigits
  obtain ⟨n, hn, hsize, hextra⟩ := Literal.exists_size hfits
  exact (mul_le_mul_of_nonneg_left hsize (trigDrift_nonneg _)).trans
    (Precision.drift_raised_le (digits_precision h) (by omega) hextra hn)

end Options

/-- The approximation promise. The word of a checked approximation, at the precision that is derived from the request, is
within the tolerance of the rotation, up to a unit in the last bit that is promised. The exponents that come up on the way
have to be ones that can be stored. -/
theorem norm_sub_rotation_le_epsilon {o : Options} {a : Approximation} (h : approximateOver E o = .ok a)
    (hE : Stores E (2 * (a.exponent + Synthesis.searchDepth))) (hdigits : o.digits = none) (hverify : o.verify = true)
    (hfits : o.theta.Fits) :
    ‖a.word.matrix - rotation o.theta.value‖ ≤ o.epsilon.value + 2 ^ (-(o.precision.bits - 32 : ℤ)) := by
  obtain ⟨hvalid, hchecked⟩ := exists_verified h hverify
  have h32 := o.precision.le_bits
  have hbits := o.precision.raised.le_bits
  have herror := Options.trigDrift_le hdigits hfits
  obtain ⟨p, hp⟩ : ∃ p, o.precision.raised.bits = p := ⟨_, rfl⟩
  rw [hp] at herror hbits
  have hone : trigDrift p * (16 * |o.theta.value| + 405) ≤ 1 :=
    herror.trans (zpow_le_one_of_nonpos₀ one_le_two (by omega))
  have hd := trigDrift_nonneg p
  have hdv := mul_nonneg hd (abs_nonneg o.theta.value)
  obtain ⟨hpos, hlt⟩ := Literal.value_of_isOpenUnit (Options.isOpenUnit_of_validate hvalid)
  have hepsilon : (o.epsilon.eval : Approx p).toReal ≤ (1 + trigDrift p) * o.epsilon.value := by
    have hnear := ((o.epsilon.eval_near (p := p) (by omega)).mono (k := Approx.trigRoundings p)
      (by rw [Approx.trigRoundings]; omega) le_rfl).abs_le
    rw [abs_of_pos hpos] at hnear
    exact (le_abs_self _).trans hnear
  have hdistance := (distance_ge (by omega) (isUnitary_ofWord a.word) (spec_of_approximate hE h).phase_eq o.theta hone).trans
    ((hp ▸ distance_le_of_verified h hE (by omega) hchecked).trans hepsilon)
  rw [matrix_ofWord] at hdistance
  -- dividing by the square costs five more roundings
  have hfactor : (1 + trigDrift p) * o.epsilon.value ≤ (1 - trigDrift p) ^ 2 * (o.epsilon.value + 5 * trigDrift p) := by
    have hproduct : trigDrift p * o.epsilon.value ≤ trigDrift p * 1 := mul_le_mul_of_nonneg_left hlt.le hd
    have hsquare : trigDrift p * trigDrift p ≤ trigDrift p * (1 / 405) := mul_le_mul_of_nonneg_left (by linarith) hd
    have hrest : 0 ≤ trigDrift p ^ 2 * (o.epsilon.value + 5 * trigDrift p) := by positivity
    linarith
  have hroot : 0 < (1 - trigDrift p) ^ 2 := by
    have : 0 < 1 - trigDrift p := by linarith
    positivity
  have := le_of_mul_le_mul_left (hdistance.trans hfactor) hroot
  linarith

/-- The rotation by one half within one fifth, at twenty-four digits. -/
theorem norm_sub_rotation_le_epsilon_half_fifth :
    ∃ a, approximate (.ofLiterals ⟨1, 2, false, by decide⟩ ⟨1, 5, false, by decide⟩) = .ok a ∧
      ‖a.word.matrix - rotation (1 / 2)‖ ≤ 1 / 5 + 2 ^ (-80 : ℤ) := by
  obtain ⟨a, ha, hexponent, -⟩ := exists_approximation_half_fifth
  have hbits : (Options.ofLiterals ⟨1, 2, false, by decide⟩ ⟨1, 5, false, by decide⟩).precision.bits = 112 := by
    decide +kernel
  have h := norm_sub_rotation_le_epsilon ha (.of_lt (by rw [Synthesis.searchDepth]; omega)) rfl rfl ⟨by decide, by decide⟩
  rw [hbits] at h
  refine ⟨a, ha, ?_⟩
  simpa [Options.ofLiterals, Literal.value] using h

end CliffordT

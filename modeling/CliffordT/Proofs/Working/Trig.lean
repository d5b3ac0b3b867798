import CliffordT.Proofs.Working.Pi
import Mathlib.Analysis.Calculus.MeanValue
import Mathlib.Analysis.Complex.ExponentialBounds
import Mathlib.Analysis.SpecialFunctions.Trigonometric.Bounds

/-!
The computed sine and cosine are near the sine and cosine of the number they are computed from.

The terms of both series are near the exact ones by three roundings each, the sums lose little more than one rounding with
every term because they stay as small as sine and cosine are, and what is left out is at most the first term that is left
out. Factorials outgrow powers so fast that the terms are far fewer than the bits. Before that the argument is
reduced by a multiple of the computed `2π`, which is off by a few roundings of the argument itself.
-/

namespace CliffordT

open Finset

/-! ### The series -/

/-- The first terms of the series of the cosine. -/
noncomputable def cosSum (n : ℕ) (x : ℝ) : ℝ := ∑ i ∈ range n, (-1) ^ i * (x ^ (2 * i) / (2 * i).factorial)

/-- The first terms of the series of the sine. -/
noncomputable def sinSum (n : ℕ) (x : ℝ) : ℝ := ∑ i ∈ range n, (-1) ^ i * (x ^ (2 * i + 1) / (2 * i + 1).factorial)

theorem cosSum_succ (n : ℕ) (x : ℝ) :
    cosSum (n + 1) x = cosSum n x + (-1) ^ n * (x ^ (2 * n) / (2 * n).factorial) := sum_range_succ _ n

theorem sinSum_succ (n : ℕ) (x : ℝ) :
    sinSum (n + 1) x = sinSum n x + (-1) ^ n * (x ^ (2 * n + 1) / (2 * n + 1).factorial) := sum_range_succ _ n

theorem hasDerivAt_pow_div_factorial (n : ℕ) (x : ℝ) :
    HasDerivAt (fun t : ℝ => t ^ (n + 1) / (n + 1).factorial) (x ^ n / n.factorial) x := by
  have h := (hasDerivAt_pow (n + 1) x).div_const ((n + 1).factorial : ℝ)
  have hvalue : ((n + 1 : ℕ) : ℝ) * x ^ (n + 1 - 1) / (n + 1).factorial = x ^ n / n.factorial := by
    rw [Nat.factorial_succ, Nat.add_sub_cancel, Nat.cast_mul]
    exact mul_div_mul_left _ _ (by positivity)
  rwa [hvalue] at h

theorem hasDerivAt_sinSum (n : ℕ) (x : ℝ) : HasDerivAt (sinSum n) (cosSum n x) x := by
  induction n with
  | zero => exact hasDerivAt_const x 0
  | succ n ih =>
    rw [cosSum_succ, funext (sinSum_succ n)]
    exact ih.add ((hasDerivAt_pow_div_factorial (2 * n) x).const_mul _)

theorem hasDerivAt_cosSum (n : ℕ) (x : ℝ) : HasDerivAt (cosSum (n + 1)) (-sinSum n x) x := by
  induction n with
  | zero =>
    rw [show cosSum (0 + 1) = fun _ => 1 by ext; simp [cosSum], show sinSum 0 x = 0 from rfl, neg_zero]
    exact hasDerivAt_const x 1
  | succ n ih =>
    have h := ih.add ((hasDerivAt_pow_div_factorial (2 * n + 1) x).const_mul ((-1) ^ (n + 1)))
    rw [pow_succ, mul_neg_one, neg_mul, ← neg_add, ← sinSum_succ] at h
    rw [funext (cosSum_succ (n + 1)), pow_succ, mul_neg_one]
    exact h

/-- A function that vanishes at zero and grows no faster than another is no larger. -/
theorem abs_le_of_deriv_le {f f' b b' : ℝ → ℝ} (hf : ∀ x, HasDerivAt f (f' x) x) (hb : ∀ x, HasDerivAt b (b' x) x)
    (hf0 : f 0 = 0) (hb0 : b 0 = 0) (h : ∀ x, 0 ≤ x → |f' x| ≤ b' x) {x : ℝ} (hx : 0 ≤ x) : |f x| ≤ b x := by
  refine image_norm_le_of_norm_deriv_right_le_deriv_boundary (a := 0) (b := x)
    (fun t _ => (hf t).continuousAt.continuousWithinAt) (fun t _ => (hf t).hasDerivWithinAt) ?_ hb
    (fun t ht => h t ht.1) ⟨hx, le_rfl⟩
  rw [hf0, hb0, norm_zero]

theorem cosSum_succ_zero (n : ℕ) : cosSum (n + 1) 0 = 1 := by
  induction n with
  | zero => simp [cosSum]
  | succ n ih => rw [cosSum_succ, ih, zero_pow (by omega), zero_div, mul_zero, add_zero]

theorem sinSum_zero (n : ℕ) : sinSum n 0 = 0 := by
  induction n with
  | zero => rfl
  | succ n ih => rw [sinSum_succ, ih, zero_pow (by omega), zero_div, mul_zero, add_zero]

theorem remainders_le (n : ℕ) {x : ℝ} (hx : 0 ≤ x) :
    |Real.cos x - cosSum n x| ≤ x ^ (2 * n) / (2 * n).factorial ∧
      |Real.sin x - sinSum n x| ≤ x ^ (2 * n + 1) / (2 * n + 1).factorial := by
  -- Each remainder is the integral of the one before it, in the order cosine, sine, next cosine.
  have hsin : ∀ n, (∀ x, 0 ≤ x → |Real.cos x - cosSum n x| ≤ x ^ (2 * n) / (2 * n).factorial) →
      ∀ x, 0 ≤ x → |Real.sin x - sinSum n x| ≤ x ^ (2 * n + 1) / (2 * n + 1).factorial := by
    intro n hcos x hx
    refine abs_le_of_deriv_le (fun t => (Real.hasDerivAt_sin t).sub (hasDerivAt_sinSum n t))
      (fun t => hasDerivAt_pow_div_factorial (2 * n) t) ?_ ?_ hcos hx
    · rw [Pi.sub_apply, Real.sin_zero, sinSum_zero, sub_zero]
    · rw [zero_pow (by omega), zero_div]
  have hcos : ∀ n x, 0 ≤ x → |Real.cos x - cosSum n x| ≤ x ^ (2 * n) / (2 * n).factorial := by
    intro n
    induction n with
    | zero =>
      intro x _
      simpa [cosSum] using Real.abs_cos_le_one x
    | succ n ih =>
      intro x hx
      refine abs_le_of_deriv_le (fun t => (Real.hasDerivAt_cos t).sub (hasDerivAt_cosSum n t))
        (fun t => hasDerivAt_pow_div_factorial (2 * n + 1) t) ?_ ?_ (fun t ht => ?_) hx
      · rw [Pi.sub_apply, Real.cos_zero, cosSum_succ_zero, sub_self]
      · rw [zero_pow (by omega), zero_div]
      · rw [neg_sub_neg, abs_sub_comm]
        exact hsin n ih t ht
  exact ⟨hcos n x hx, hsin n (hcos n) x hx⟩

theorem cosSum_neg (n : ℕ) (x : ℝ) : cosSum n (-x) = cosSum n x := by
  refine sum_congr rfl fun i _ => ?_
  rw [(even_two_mul i).neg_pow]

theorem sinSum_neg (n : ℕ) (x : ℝ) : sinSum n (-x) = -sinSum n x := by
  rw [sinSum, sinSum, ← sum_neg_distrib]
  refine sum_congr rfl fun i _ => ?_
  rw [(odd_two_mul_add_one i).neg_pow, neg_div, mul_neg]

theorem abs_cos_sub_sum_le (n : ℕ) (x : ℝ) : |Real.cos x - cosSum n x| ≤ |x| ^ (2 * n) / (2 * n).factorial := by
  rcases abs_choice x with h | h <;> rw [h]
  · exact (remainders_le n (abs_eq_self.1 h)).1
  · have := (remainders_le n (abs_eq_neg_self.1 h |> neg_nonneg.2)).1
    rwa [Real.cos_neg, cosSum_neg] at this

theorem abs_sin_sub_sum_le (n : ℕ) (x : ℝ) :
    |Real.sin x - sinSum n x| ≤ |x| ^ (2 * n + 1) / (2 * n + 1).factorial := by
  rcases abs_choice x with h | h <;> rw [h]
  · exact (remainders_le n (abs_eq_self.1 h)).2
  · have := (remainders_le n (abs_eq_neg_self.1 h |> neg_nonneg.2)).2
    rwa [Real.sin_neg, sinSum_neg, neg_sub_neg, abs_sub_comm] at this

namespace Approx

variable {p : ℕ} {x : ℝ} {m n : ℕ}

/-! ### The loop -/

/-- The sums of both series so far, and the last terms in them. -/
structure Series (p : ℕ) where
  sin : Approx p
  cos : Approx p
  sinTerm : Approx p
  cosTerm : Approx p

namespace Series

/-- The first term of either series. -/
def first (r : Approx p) : Series p := ⟨r, 1, r, 1⟩

/-- Both sums with their terms number `n`, which are made from the terms before. -/
def next (square : Approx p) (n : ℕ) (s : Series p) : Series p :=
  let cosTerm := -(s.cosTerm * square).divInt ((2 * n - 1) * (2 * n) : ℕ)
  let sinTerm := -(s.sinTerm * square).divInt ((2 * n) * (2 * n + 1) : ℕ)
  ⟨s.sin + sinTerm, s.cos + cosTerm, sinTerm, cosTerm⟩

/-- Whether the last terms are both below a limit. -/
def negligible (limit : Approx p) (s : Series p) : Bool :=
  s.cosTerm.abs.order limit = .lt && s.sinTerm.abs.order limit = .lt

/-- The loop over the terms from number `n` on, with no bound on its steps: the terms with the number `last` are the first that
are negligible, and they are not added. -/
inductive Runs (square limit : Approx p) : ℕ → Series p → ℕ → Series p → Prop
  | stop {n : ℕ} {s : Series p} (h : (s.next square n).negligible limit = true) : Runs square limit n s n s
  | more {n last : ℕ} {s out : Series p} (h : (s.next square n).negligible limit = false)
      (rest : Runs square limit (n + 1) (s.next square n) last out) : Runs square limit n s last out

theorem Runs.le {square limit : Approx p} {last : ℕ} {s out : Series p} (h : Runs square limit n s last out) : n ≤ last := by
  induction h with
  | stop => exact le_rfl
  | more _ _ ih => omega

/-- As long as there are steps left at the end, their number makes no difference. -/
theorem Runs.sinCosTail_eq {square limit : Approx p} {last : ℕ} {s out : Series p} (h : Runs square limit n s last out)
    {steps : ℕ} (hsteps : last < n + steps) :
    sinCosTail square limit n s.sin s.cos s.sinTerm s.cosTerm steps = (out.sin, out.cos) := by
  induction h generalizing steps with
  | stop h =>
    obtain ⟨k, rfl⟩ := Nat.exists_eq_succ_of_ne_zero (by omega : steps ≠ 0)
    exact if_pos h
  | more h rest ih =>
    have hle := rest.le
    obtain ⟨k, rfl⟩ := Nat.exists_eq_succ_of_ne_zero (by omega : steps ≠ 0)
    exact (if_neg (Bool.not_eq_true _ ▸ h)).trans (ih (by omega))

end Series

/-! ### The sums -/

/-- A bound for the first terms of both series together. -/
noncomputable def seriesBound (n : ℕ) (x : ℝ) : ℝ := ∑ i ∈ range n, |x| ^ i / i.factorial

theorem seriesBound_add_two (n : ℕ) (x : ℝ) : seriesBound (n + 2) x =
    seriesBound n x + |x| ^ n / n.factorial + |x| ^ (n + 1) / (n + 1).factorial := by
  rw [seriesBound, sum_range_succ, sum_range_succ, ← seriesBound]

theorem seriesBound_nonneg (n : ℕ) (x : ℝ) : 0 ≤ seriesBound n x := sum_nonneg fun i _ => by positivity

theorem seriesBound_le (hx : |x| ≤ 4) (n : ℕ) : seriesBound n x ≤ 55 := by
  refine (Real.sum_le_exp_of_nonneg (abs_nonneg x) n).trans ((Real.exp_le_exp.2 hx).trans ?_)
  rw [show (4 : ℝ) = (4 : ℕ) * 1 by norm_num, Real.exp_nat_mul]
  calc Real.exp 1 ^ 4 ≤ 2.7182818286 ^ 4 := pow_le_pow_left₀ (Real.exp_pos 1).le Real.exp_one_lt_d9.le 4
    _ ≤ 55 := by norm_num

theorem succ_mul_pow_div_factorial (m : ℕ) (x : ℝ) :
    ((m + 1 : ℕ) : ℝ) * (|x| ^ (m + 1) / (m + 1).factorial) = |x| * (|x| ^ m / m.factorial) := by
  rw [Nat.factorial_succ, Nat.cast_mul, pow_succ]
  field_simp

theorem Near.nextTerm (hp : 1 ≤ p) {t square : Approx p} {d : ℕ} (hd : d = (m + 1) * (m + 2))
    (h : Near (3 * n) (|x| ^ m / m.factorial) t ((-1) ^ n * (x ^ m / m.factorial)))
    (hsquare : Near 1 (|x| * |x|) square (x * x)) :
    Near (3 * (n + 1)) (|x| ^ (m + 2) / (m + 2).factorial) (-(t * square).divInt d)
      ((-1) ^ (n + 1) * (x ^ (m + 2) / (m + 2).factorial)) := by
  have hd0 : (d : ℤ) ≠ 0 := by
    rw [hd]
    positivity
  have hfactorial : ((m + 2).factorial : ℝ) = m.factorial * d := by
    rw [hd, Nat.factorial_succ, Nat.factorial_succ]
    push_cast
    ring
  have hsize : |x| ^ (m + 2) / (m + 2).factorial = |x| ^ m / m.factorial * (|x| * |x|) / |((d : ℤ) : ℝ)| := by
    rw [hfactorial, Int.cast_natCast, Nat.abs_cast]
    ring
  have hvalue : (-1) ^ (n + 1) * (x ^ (m + 2) / (m + 2).factorial) =
      -((-1) ^ n * (x ^ m / m.factorial) * (x * x) / ((d : ℤ) : ℝ)) := by
    rw [hfactorial, Int.cast_natCast]
    ring
  rw [hsize, hvalue]
  exact ((h.mul hsquare).divInt hp hd0).neg

/-- A sum of size one has an error of two roundings with every term, however many terms there are, and the errors of the
terms themselves are a multiple of the terms before, since a term has few more roundings than its denominator is longer. -/
theorem abs_add_term_sub_le (hp : 1 ≤ p) {sum t : Approx p} {a b e prev tail : ℝ} (hsum : |sum.toReal - a| ≤ e) (he : e ≤ 1)
    (ha : |a| ≤ 1 + tail) (ht : Near (3 * (n + 1)) tail t b) (hprev : (2 * n + 2) * tail ≤ 4 * prev)
    (hcount : 6 * (n + 1) * ulp p ≤ 1) : |(sum + t).toReal - (a + b)| ≤ e + ulp p * (2 + 12 * (prev + tail)) := by
  have hpos := ulp_pos p
  have htail := ht.nonneg
  have hcast : 2 * ((3 * (n + 1) : ℕ) : ℝ) * ulp p = 6 * (n + 1) * ulp p := by
    push_cast
    ring
  have hdrift := drift_le (p := p) (k := 3 * (n + 1)) (hcast.trans_le hcount)
  rw [hcast] at hdrift
  have hterm : drift p (3 * (n + 1)) * tail ≤ ulp p * (12 * prev) := by
    have h₁ := mul_le_mul_of_nonneg_right hdrift htail
    have h₂ := mul_le_mul_of_nonneg_left hprev hpos.le
    linarith
  have hsize : |sum.toReal + t.toReal| ≤ 2 + 3 * tail := by
    have h₁ := ht.abs_le
    have h₂ := mul_le_mul_of_nonneg_right (hdrift.trans hcount) htail
    have h₃ := abs_sub_abs_le_abs_sub sum.toReal a
    linarith [abs_add_le sum.toReal t.toReal]
  have hround := (abs_add_sub_le hp sum t).trans (mul_le_mul_of_nonneg_left hsize hpos.le)
  have herror := ht.error
  have hextra := mul_nonneg hpos.le htail
  rw [abs_le] at hround hsum herror ⊢
  constructor <;> linarith

namespace Series

variable {s : Series p} {square : Approx p}

/-- The sums up to the terms number `n`. -/
structure Accurate (x : ℝ) (n : ℕ) (s : Series p) : Prop where
  sin : |s.sin.toReal - sinSum (n + 1) x| ≤ ulp p * (2 * n + 12 * seriesBound (2 * n + 2) x)
  cos : |s.cos.toReal - cosSum (n + 1) x| ≤ ulp p * (2 * n + 12 * seriesBound (2 * n + 1) x)
  sinTerm : Near (3 * n) (|x| ^ (2 * n + 1) / (2 * n + 1).factorial) s.sinTerm
    ((-1) ^ n * (x ^ (2 * n + 1) / (2 * n + 1).factorial))
  cosTerm : Near (3 * n) (|x| ^ (2 * n) / (2 * n).factorial) s.cosTerm ((-1) ^ n * (x ^ (2 * n) / (2 * n).factorial))

/-- The loop starts with the first terms of both series, which are exact. -/
theorem accurate_first {r : Approx p} (hr : r.toReal = x) : (first r).Accurate x 0 := by
  have hpos := ulp_pos p
  have hterm : Near 0 |x| r x := hr ▸ Near.exact r
  have hone : Near 0 1 (1 : Approx p) 1 := by simpa using Near.exact (1 : Approx p)
  refine ⟨?_, ?_, by simpa [first] using hterm, by simpa [first] using hone⟩
  · rw [show sinSum (0 + 1) x = x by simp [sinSum], first, hr, sub_self, abs_zero]
    have := seriesBound_nonneg (2 * 0 + 2) x
    positivity
  · rw [show cosSum (0 + 1) x = 1 by simp [cosSum], first, toReal_one, sub_self, abs_zero]
    have := seriesBound_nonneg (2 * 0 + 1) x
    positivity

theorem Accurate.next (hp : 1 ≤ p) (hx : |x| ≤ 4) (hsquare : Near 1 (|x| * |x|) square (x * x))
    (hcount : (6 * n + 660) * ulp p ≤ 1) (h : s.Accurate x n) : (s.next square (n + 1)).Accurate x (n + 1) := by
  have hpos := ulp_pos p
  have hn : 0 ≤ (n : ℝ) * ulp p := by positivity
  have hsmall : ∀ k, ulp p * (2 * n + 12 * seriesBound k x) ≤ 1 := fun k => by
    have := mul_le_mul_of_nonneg_left (seriesBound_le hx k) hpos.le
    linarith
  have hprev : ∀ k, 2 * n + 1 ≤ k →
      (2 * n + 2 : ℝ) * (|x| ^ (k + 1) / (k + 1).factorial) ≤ 4 * (|x| ^ k / k.factorial) := fun k hk => by
    have hk' : (2 * n + 2 : ℝ) ≤ (k + 1 : ℕ) := by exact_mod_cast (by omega : 2 * n + 2 ≤ k + 1)
    refine (mul_le_mul_of_nonneg_right hk' (by positivity)).trans ?_
    rw [succ_mul_pow_div_factorial]
    exact mul_le_mul_of_nonneg_right hx (by positivity)
  have hsin := h.sinTerm.nextTerm hp (d := 2 * (n + 1) * (2 * (n + 1) + 1)) (by ring) hsquare
  have hcos := h.cosTerm.nextTerm hp (d := (2 * (n + 1) - 1) * (2 * (n + 1)))
    (by rw [show 2 * (n + 1) - 1 = 2 * n + 1 by omega]; ring) hsquare
  refine ⟨?_, ?_, hsin, hcos⟩
  · have hsize : |sinSum (n + 1) x| ≤ 1 + |x| ^ (2 * n + 2 + 1) / (2 * n + 2 + 1).factorial := by
      have := (abs_sub_abs_le_abs_sub (sinSum (n + 1) x) (Real.sin x)).trans
        ((abs_sub_comm _ _).trans_le (abs_sin_sub_sum_le (n + 1) x))
      exact (sub_le_iff_le_add'.1 this).trans (add_le_add (Real.abs_sin_le_one x) le_rfl)
    have := abs_add_term_sub_le hp h.sin (hsmall _) hsize hsin (hprev _ (by omega)) (by linarith)
    rw [sinSum_succ, show 2 * (n + 1) + 2 = 2 * n + 2 + 2 by ring, seriesBound_add_two (2 * n + 2)]
    push_cast
    refine this.trans (le_of_eq ?_)
    ring
  · have hsize : |cosSum (n + 1) x| ≤ 1 + |x| ^ (2 * n + 1 + 1) / (2 * n + 1 + 1).factorial := by
      have := (abs_sub_abs_le_abs_sub (cosSum (n + 1) x) (Real.cos x)).trans
        ((abs_sub_comm _ _).trans_le (abs_cos_sub_sum_le (n + 1) x))
      exact (sub_le_iff_le_add'.1 this).trans (add_le_add (Real.abs_cos_le_one x) le_rfl)
    have := abs_add_term_sub_le hp h.cos (hsmall _) hsize hcos (hprev _ le_rfl) (by linarith)
    rw [cosSum_succ, show 2 * (n + 1) + 1 = 2 * n + 1 + 2 by ring, seriesBound_add_two (2 * n + 1)]
    push_cast
    refine this.trans (le_of_eq ?_)
    ring

end Series

/-! ### The number of terms -/

/-- A number of a term that is negligible in any series with an argument of at most four. -/
def Enough (p n : ℕ) : Prop := ∃ j, 16 * 2 ^ j ≤ n + 1 ∧ p + 10 ≤ n * j

/-- Where the number of a term is large, the factorial is far beyond the power. -/
theorem pow_div_factorial_le (hx : |x| ≤ 4) (hn : Enough p n) :
    |x| ^ (2 * n) / (2 * n).factorial ≤ 2 ^ (-(p : ℤ) - 10) := by
  obtain ⟨j, hbase, hexp⟩ := hn
  have hpow : |x| ^ (2 * n) ≤ 16 ^ n := by
    have := pow_le_pow_left₀ (abs_nonneg x) hx (2 * n)
    rwa [pow_mul 4, show (4 : ℝ) ^ 2 = 16 by norm_num] at this
  have hfactorial : (16 : ℝ) ^ n * 2 ^ (n * j) ≤ (2 * n).factorial := by
    have h := Nat.factorial_mul_pow_le_factorial (m := n) (n := n)
    rw [← two_mul] at h
    have hle : 16 ^ n * 2 ^ (n * j) ≤ (n + 1) ^ n := by
      rw [mul_comm n, pow_mul, ← mul_pow]
      exact Nat.pow_le_pow_left hbase n
    exact_mod_cast (hle.trans (Nat.le_mul_of_pos_left _ n.factorial_pos)).trans h
  calc |x| ^ (2 * n) / (2 * n).factorial ≤ 16 ^ n / (16 ^ n * 2 ^ (n * j)) :=
        div_le_div₀ (by positivity) hpow (by positivity) hfactorial
    _ = 2 ^ (-((n * j : ℕ) : ℤ)) := by
        rw [zpow_neg, zpow_natCast, div_mul_eq_div_div, div_self (by positivity), one_div]
    _ ≤ 2 ^ (-(p : ℤ) - 10) := zpow_le_zpow_right₀ one_le_two (by omega)

theorem pow_succ_div_factorial_le (hx : |x| ≤ 4) (hn : Enough p n) :
    |x| ^ (2 * n + 1) / (2 * n + 1).factorial ≤ 2 ^ (-(p : ℤ) - 10) := by
  refine le_trans ?_ (pow_div_factorial_le hx hn)
  have hle : 4 ≤ 2 * n + 1 := by
    obtain ⟨j, hbase, -⟩ := hn
    have := Nat.two_pow_pos j
    omega
  have hratio : |x| / (2 * n + 1 : ℕ) ≤ 1 := div_le_one_of_le₀ (hx.trans (by exact_mod_cast hle)) (by positivity)
  rw [Nat.factorial_succ, Nat.cast_mul, pow_succ, mul_comm (|x| ^ (2 * n)), mul_div_mul_comm]
  exact mul_le_of_le_one_left (by positivity) hratio

theorem enough_add_sixteen (hp : 15 ≤ p) : Enough p (p + 16) := ⟨1, by omega, by omega⟩

/-- The limit below which terms are negligible. -/
def limit (p : ℕ) : Approx p := powTwo (-(p : ℤ) - 8)

namespace Series

variable {s : Series p} {square : Approx p}

theorem negligible_iff (hp : 2 ≤ p) (s : Series p) : s.negligible (limit p) = true ↔
    |s.cosTerm.toReal| < 2 ^ (-(p : ℤ) - 8) ∧ |s.sinTerm.toReal| < 2 ^ (-(p : ℤ) - 8) := by
  rw [negligible, Bool.and_eq_true, decide_eq_true_eq, decide_eq_true_eq, order_eq_lt_iff hp, order_eq_lt_iff hp, toReal_abs,
    toReal_abs, limit, toReal_powTwo]

theorem Accurate.abs_terms (h : s.Accurate x n) (hdrift : drift p (3 * n) ≤ 1 / 2) :
    (|s.cosTerm.toReal| ≤ 2 * (|x| ^ (2 * n) / (2 * n).factorial) ∧
      |x| ^ (2 * n) / (2 * n).factorial ≤ 2 * |s.cosTerm.toReal|) ∧
    |s.sinTerm.toReal| ≤ 2 * (|x| ^ (2 * n + 1) / (2 * n + 1).factorial) ∧
      |x| ^ (2 * n + 1) / (2 * n + 1).factorial ≤ 2 * |s.sinTerm.toReal| := by
  have hnear : ∀ {t : Approx p} {i : ℕ}, Near (3 * n) (|x| ^ i / i.factorial) t ((-1) ^ n * (x ^ i / i.factorial)) →
      |t.toReal| ≤ 2 * (|x| ^ i / i.factorial) ∧ |x| ^ i / i.factorial ≤ 2 * |t.toReal| := fun {t i} h => by
    have hsize : |(-1) ^ n * (x ^ i / i.factorial)| = |x| ^ i / i.factorial := by
      rw [abs_mul, abs_pow, abs_neg, abs_one, one_pow, one_mul, abs_div, abs_pow, Nat.abs_cast]
    have herror := h.error.trans (mul_le_mul_of_nonneg_right hdrift h.nonneg)
    have h₁ := abs_sub_abs_le_abs_sub t.toReal ((-1) ^ n * (x ^ i / i.factorial))
    have h₂ := abs_sub_abs_le_abs_sub ((-1) ^ n * (x ^ i / i.factorial)) t.toReal
    rw [abs_sub_comm, hsize] at h₂
    rw [hsize] at h₁
    constructor <;> linarith [h.nonneg]
  exact ⟨hnear h.cosTerm, hnear h.sinTerm⟩

theorem Accurate.negligible_of_enough (hp : 2 ≤ p) (hx : |x| ≤ 4) (hn : Enough p n) (h : s.Accurate x n)
    (hdrift : drift p (3 * n) ≤ 1 / 2) : s.negligible (limit p) = true := by
  have hlimit : 2 * (2 : ℝ) ^ (-(p : ℤ) - 10) < 2 ^ (-(p : ℤ) - 8) := by
    rw [← zpow_one_add₀ two_ne_zero]
    exact zpow_lt_zpow_right₀ one_lt_two (by omega)
  obtain ⟨⟨hcos, -⟩, hsin, -⟩ := h.abs_terms hdrift
  rw [negligible_iff hp]
  exact ⟨by linarith [pow_div_factorial_le hx hn], by linarith [pow_succ_div_factorial_le hx hn]⟩

theorem Accurate.le_ulp_of_negligible (hp : 2 ≤ p) (h : s.Accurate x n) (hdrift : drift p (3 * n) ≤ 1 / 2)
    (hstop : s.negligible (limit p) = true) : |x| ^ (2 * n) / (2 * n).factorial ≤ ulp p ∧
      |x| ^ (2 * n + 1) / (2 * n + 1).factorial ≤ ulp p := by
  have hulp : 2 * (2 : ℝ) ^ (-(p : ℤ) - 8) ≤ ulp p := by
    rw [ulp_eq, ← zpow_one_add₀ two_ne_zero]
    exact zpow_le_zpow_right₀ one_le_two (by omega)
  obtain ⟨⟨-, hcos⟩, -, hsin⟩ := h.abs_terms hdrift
  rw [negligible_iff hp] at hstop
  exact ⟨by linarith, by linarith⟩

/-- The loop ends before any number at which terms have to be negligible, and what it leaves out is less than a rounding. -/
theorem exists_runs (hp : 2 ≤ p) (hx : |x| ≤ 4) (hsquare : Near 1 (|x| * |x|) square (x * x)) (hm : Enough p m)
    (hcount : (6 * m + 660) * ulp p ≤ 1) (hdrift : drift p (3 * m) ≤ 1 / 2) (hn : n < m) (h : s.Accurate x n) :
    ∃ last < m, ∃ out, Runs square (limit p) (n + 1) s (last + 1) out ∧ out.Accurate x last ∧
      |x| ^ (2 * (last + 1)) / (2 * (last + 1)).factorial ≤ ulp p ∧
      |x| ^ (2 * (last + 1) + 1) / (2 * (last + 1) + 1).factorial ≤ ulp p := by
  -- by induction on the numbers from `n` up to the one at which terms have to be negligible
  induction hleft : m - n generalizing n s with
  | zero => omega
  | succ left ih =>
    have hnext : (s.next square (n + 1)).Accurate x (n + 1) := by
      refine h.next (by omega) hx hsquare (le_trans (mul_le_mul_of_nonneg_right ?_ (ulp_pos p).le) hcount)
      have : (n : ℝ) ≤ m := by exact_mod_cast hn.le
      linarith
    have hsmall : drift p (3 * (n + 1)) ≤ 1 / 2 := (drift_mono p (by omega)).trans hdrift
    cases hstop : (s.next square (n + 1)).negligible (limit p) with
    | true => exact ⟨n, hn, s, .stop hstop, h, hnext.le_ulp_of_negligible hp hsmall hstop⟩
    | false =>
      have hne : n + 1 ≠ m := by
        rintro rfl
        exact Bool.false_ne_true (hstop.symm.trans (hnext.negligible_of_enough hp hx hm hsmall))
      obtain ⟨last, hlast, out, hruns, hout⟩ := ih (by omega) hnext (by omega)
      exact ⟨last, hlast, out, .more hstop hruns, hout⟩

end Series

/-! ### Reduced arguments -/

/-- The roundings that any number of the loop has gone through, and some more. -/
def trigRoundings (p : ℕ) : ℕ := 3 * p + 400

theorem drift_le_trigRoundings {k : ℕ} (h : k ≤ 3 * p + 400) : drift p k ≤ drift p (trigRoundings p) := drift_mono p h

/-- The sums for an argument of at most four, whatever number is known at which terms have to be negligible. -/
theorem exists_runs_first (hp : 15 ≤ p) {r : Approx p} (hr : |r.toReal| ≤ 4) (hdrift : drift p (trigRoundings p) ≤ 1 / 2)
    (hm : Enough p m) (more : ℕ) : ∃ last ≤ m, ∃ out, Series.Runs (r * r) (limit p) 1 (.first r) last out ∧
      sinCosTail (r * r) (limit p) 1 r 1 r 1 (p + 16 + more) = (out.sin, out.cos) ∧
      |out.sin.toReal - Real.sin r.toReal| ≤ ulp p * (2 * last + 660) ∧
      |out.cos.toReal - Real.cos r.toReal| ≤ ulp p * (2 * last + 660) := by
  have hpos := ulp_pos p
  have hmin : Enough p (min (p + 16) m) := min_rec' (Enough p) (enough_add_sixteen hp) hm
  obtain ⟨n, hn⟩ : ∃ n, min (p + 16) m = n := ⟨_, rfl⟩
  rw [hn] at hmin
  have hcount : (6 * n + 660) * ulp p ≤ 1 := by
    have hroundings := (mul_ulp_le_drift p (trigRoundings p)).trans hdrift
    have hle : (n : ℝ) ≤ p + 16 := by exact_mod_cast (by omega : n ≤ p + 16)
    have := mul_le_mul_of_nonneg_right hle hpos.le
    rw [trigRoundings] at hroundings
    push_cast at hroundings
    linarith
  have hfirst : 0 < n := by
    obtain ⟨j, hbase, -⟩ := hmin
    have := Nat.two_pow_pos j
    omega
  have hsquare : Near 1 (|r.toReal| * |r.toReal|) (r * r) (r.toReal * r.toReal) := (Near.exact r).mul (Near.exact r)
  obtain ⟨last, hlast, out, hruns, hout, hcos, hsin⟩ := Series.exists_runs (by omega) hr hsquare hmin hcount
    ((drift_le_trigRoundings (by omega)).trans hdrift) hfirst (Series.accurate_first rfl)
  have hgrow : ∀ k, ulp p * (2 * last + 12 * seriesBound k r.toReal) ≤ ulp p * (2 * last + 660) := fun k =>
    mul_le_mul_of_nonneg_left (by linarith [seriesBound_le hr k]) hpos.le
  refine ⟨last + 1, by omega, out, hruns, hruns.sinCosTail_eq (by omega), ?_, ?_⟩
  · have := abs_sub_le out.sin.toReal (sinSum (last + 1) r.toReal) (Real.sin r.toReal)
    rw [abs_sub_comm (sinSum (last + 1) r.toReal)] at this
    push_cast
    linarith [hout.sin, hgrow (2 * last + 2), abs_sin_sub_sum_le (last + 1) r.toReal]
  · have := abs_sub_le out.cos.toReal (cosSum (last + 1) r.toReal) (Real.cos r.toReal)
    rw [abs_sub_comm (cosSum (last + 1) r.toReal)] at this
    push_cast
    linarith [hout.cos, hgrow (2 * last + 1), abs_cos_sub_sum_le (last + 1) r.toReal]

/-! ### All arguments -/

/-- What is left of an argument after whole turns. -/
def reduced (x : Approx p) : Approx p := x - (pi.scale 2).scale (x / pi.scale 2).nearest

/-- The roundings of a reduced argument, with those of `π`. -/
def reductionRoundings (p : ℕ) : ℕ := 2 * (p / 4096) + 7

/-- The multiple of `2π` that is nearest by a quotient which is not exact. -/
theorem abs_mul_two_pi_sub_le {n q x d : ℝ} (hn : |n - q| ≤ 1 / 2)
    (hq : |q - x / (2 * Real.pi)| ≤ d * (|x| / (2 * Real.pi))) : |n * (2 * Real.pi) - x| ≤ d * |x| + Real.pi := by
  have hpi : 0 < 2 * Real.pi := by positivity
  calc |n * (2 * Real.pi) - x| = |n - x / (2 * Real.pi)| * (2 * Real.pi) := by
        rw [← abs_of_pos hpi, ← abs_mul, abs_of_pos hpi, sub_mul, div_mul_cancel₀ _ hpi.ne']
    _ ≤ (1 / 2 + d * (|x| / (2 * Real.pi))) * (2 * Real.pi) :=
        mul_le_mul_of_nonneg_right ((abs_sub_le n q _).trans (add_le_add hn hq)) hpi.le
    _ = d * |x| + Real.pi := by
        rw [add_mul, mul_assoc d, div_mul_cancel₀ _ hpi.ne']
        ring

/-- Subtracting the nearest multiple of the computed `2π` leaves a small argument, which is near one that has the same sine
and cosine. -/
theorem exists_reduced (hp : 1 ≤ p) (x : Approx p)
    (hx : drift p (reductionRoundings p) * (8 * |x.toReal| + 8) ≤ 1) :
    |(reduced x).toReal| ≤ 4 ∧ ∃ turns : ℤ, |(reduced x).toReal - (x.toReal - turns * (2 * Real.pi))| ≤
      drift p (reductionRoundings p) * (3 * |x.toReal| + 4) := by
  obtain ⟨turns, hturnsdef⟩ : ∃ turns, (x / pi.scale 2).nearest = turns := ⟨_, rfl⟩
  rw [reduced, hturnsdef]
  have hpi := Real.pi_gt_three
  have hpi' := Real.pi_lt_d2
  set d := drift p (reductionRoundings p) with hd
  have hd0 : 0 ≤ d := drift_nonneg p _
  have hx0 := abs_nonneg x.toReal
  have hmul := mul_nonneg hd0 hx0
  have htwoPi : Near (p / 4096 + 3) |2 * Real.pi| (pi.scale 2 : Approx p) (2 * Real.pi) := by
    have := (Near.pi (p := p)).scale 2
    rw [abs_of_pos (by linarith)]
    simpa [mul_comm] using this
  have hquotient : |(x / pi.scale 2).toReal - x.toReal / (2 * Real.pi)| ≤ d * (|x.toReal| / (2 * Real.pi)) := by
    have := ((Near.exact x).div hp htwoPi (by linarith)
      ((drift_mono p (by rw [reductionRoundings]; omega)).trans (by linarith : d ≤ 1 / 2))).mono
        (k := reductionRoundings p) (by rw [reductionRoundings]; omega) le_rfl
    rw [abs_of_pos (by linarith : 0 < 2 * Real.pi)] at this
    exact this.error
  have hnearest : |(turns : ℝ) - (x / pi.scale 2).toReal| ≤ 1 / 2 := by
    have h₁ := Int.floor_le ((x / pi.scale 2).toReal + 1 / 2)
    have h₂ := Int.lt_floor_add_one ((x / pi.scale 2).toReal + 1 / 2)
    rw [← hturnsdef, nearest_eq, abs_le]
    constructor <;> linarith
  have hturns := abs_mul_two_pi_sub_le hnearest hquotient
  have hmultiple : |turns * (2 * Real.pi)| ≤ 2 * |x.toReal| + 4 := by
    have := abs_sub_abs_le_abs_sub (turns * (2 * Real.pi)) x.toReal
    have : d * |x.toReal| ≤ 1 * |x.toReal| := mul_le_mul_of_nonneg_right (by linarith) hx0
    linarith
  have hreduced : |(x - (pi.scale 2).scale turns).toReal - (x.toReal - turns * (2 * Real.pi))| ≤
      d * (3 * |x.toReal| + 4) := by
    have hscale := htwoPi.scale turns
    have := (((Near.exact x).mono (by omega) le_rfl).sub hp hscale).mono (k := reductionRoundings p)
      (m := 3 * |x.toReal| + 4) (by rw [reductionRoundings]; omega) (by
        rw [← abs_mul, mul_comm (2 * Real.pi)]
        linarith)
    rw [mul_comm (2 * Real.pi)] at this
    exact this.error
  refine ⟨?_, turns, hreduced⟩
  have htri := abs_sub_abs_le_abs_sub (x - (pi.scale 2).scale turns).toReal (x.toReal - turns * (2 * Real.pi))
  rw [abs_sub_comm x.toReal] at htri
  linarith

/-- Sine and cosine are the sums at the end of the loop. Their error is two roundings for every term and those of the reduced
argument. -/
theorem exists_runs_sinCos (hp : 15 ≤ p) (x : Approx p) (hx : drift p (reductionRoundings p) * (8 * |x.toReal| + 8) ≤ 1)
    (hdrift : drift p (trigRoundings p) ≤ 1 / 2) (hm : Enough p m) :
    ∃ last ≤ m, ∃ out, Series.Runs (reduced x * reduced x) (limit p) 1 (.first (reduced x)) last out ∧
      sinCos x = (out.sin, out.cos) ∧
      |out.sin.toReal - Real.sin x.toReal| ≤
        ulp p * (2 * last + 660) + drift p (reductionRoundings p) * (3 * |x.toReal| + 4) ∧
      |out.cos.toReal - Real.cos x.toReal| ≤
        ulp p * (2 * last + 660) + drift p (reductionRoundings p) * (3 * |x.toReal| + 4) := by
  obtain ⟨hsmall, turns, hreduced⟩ := exists_reduced (by omega) x hx
  obtain ⟨last, hlast, out, hruns, hout, hsin, hcos⟩ :=
    exists_runs_first hp hsmall hdrift hm (4 * (reduced x * reduced x).ceil.toNat)
  refine ⟨last, hlast, out, hruns, hout, ?_, ?_⟩
  · have hclose := Real.abs_sin_sub_sin_le (reduced x).toReal (x.toReal - turns * (2 * Real.pi))
    rw [Real.sin_sub_int_mul_two_pi] at hclose
    exact (abs_sub_le _ _ _).trans (add_le_add hsin (hclose.trans hreduced))
  · have hclose := Real.abs_cos_sub_cos_le (reduced x).toReal (x.toReal - turns * (2 * Real.pi))
    rw [Real.cos_sub_int_mul_two_pi] at hclose
    exact (abs_sub_le _ _ _).trans (add_le_add hcos (hclose.trans hreduced))

theorem abs_sinCos_sub_le (hp : 15 ≤ p) (x : Approx p) (hx : drift p (trigRoundings p) * (8 * |x.toReal| + 8) ≤ 1) :
    |(sinCos x).1.toReal - Real.sin x.toReal| ≤ drift p (trigRoundings p) * (3 * |x.toReal| + 86) ∧
      |(sinCos x).2.toReal - Real.cos x.toReal| ≤ drift p (trigRoundings p) * (3 * |x.toReal| + 86) := by
  have hx0 := abs_nonneg x.toReal
  have hmono : drift p (reductionRoundings p) ≤ drift p (trigRoundings p) :=
    drift_le_trigRoundings (by rw [reductionRoundings]; omega)
  have hmul := mul_nonneg (drift_nonneg p (trigRoundings p)) hx0
  obtain ⟨last, hlast, out, -, hout, hsin, hcos⟩ := exists_runs_sinCos hp x
    ((mul_le_mul_of_nonneg_right hmono (by positivity)).trans hx) (by linarith) (enough_add_sixteen hp)
  have hterms : ulp p * (2 * last + 660) ≤ drift p (trigRoundings p) * 82 := by
    have hcount := mul_ulp_le_drift p (trigRoundings p)
    have hle := mul_le_mul_of_nonneg_left (by exact_mod_cast hlast : (last : ℝ) ≤ (p + 16 : ℕ)) (ulp_pos p).le
    have hpos := mul_nonneg (Nat.cast_nonneg (α := ℝ) p) (ulp_pos p).le
    rw [trigRoundings] at hcount ⊢
    push_cast at hcount hle
    linarith [ulp_pos p]
  have hreduced := mul_le_mul_of_nonneg_right hmono (by positivity : 0 ≤ 3 * |x.toReal| + 4)
  rw [hout]
  exact ⟨hsin.trans (by linarith), hcos.trans (by linarith)⟩

end Approx

end CliffordT

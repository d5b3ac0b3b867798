import CliffordT.Proofs.Grid.Candidates
import CliffordT.Proofs.Grid.Splitting
import Mathlib.Analysis.SpecialFunctions.Pow.NNReal

/-!
The one-dimensional enumeration is exact.

If the ends of both intervals and the reciprocals of their lengths are at most the fourth root of `2 ^ bits`, neighbouring
numbers are so near each other that splitting comes to an end, and the powers of `λ` stay below the square root, so
that no rounding counts. Then every number in the intervals is among the candidates of the piece it falls into.
-/

namespace CliffordT

open Approx

/-- From the lowest precision on, the fourth root of `2 ^ p` is much larger than `p`. -/
theorem mul_pow_four_le_two_pow {p : ℕ} (hp : 86 ≤ p) : (30000 * p) ^ 4 ≤ 2 ^ p := by
  induction p, hp using Nat.le_induction with
  | base => norm_num
  | succ p hp ih =>
    have hstep : (30000 * (p + 1)) ^ 4 ≤ 2 * (30000 * p) ^ 4 := by
      have hroot : 86 * (p + 1) ≤ 87 * p := by omega
      have hfour := Nat.pow_le_pow_left hroot 4
      rw [mul_pow, mul_pow] at hfour ⊢
      omega
    calc (30000 * (p + 1)) ^ 4 ≤ 2 * (30000 * p) ^ 4 := hstep
      _ ≤ 2 * 2 ^ p := Nat.mul_le_mul_left 2 ih
      _ = 2 ^ (p + 1) := (pow_succ' 2 p).symm

theorem Precision.le_bits_ofDigits (digits : ℕ) : 86 ≤ (Precision.ofDigits digits).bits := by
  obtain ⟨hlow, -⟩ := Precision.bits_bounds (Precision.ofDigits digits)
  have hten := BinaryLog.ten_gt
  have hdigits : (16 : ℝ) ≤ (Precision.ofDigits digits).digits := by
    exact_mod_cast le_max_right digits Precision.minDigits
  have hprod : 16 * 3.32 ≤ (Precision.ofDigits digits).digits * BinaryLog.ten.toReal := by gcongr
  have hbits : (85 : ℝ) < (Precision.ofDigits digits).bits := by
    norm_num at hlow hprod
    linarith
  exact_mod_cast hbits

namespace Line

open Progress

variable {p : ℕ} {b : ℝ}

/-- A fourth root of `2 ^ p`. -/
structure IsScale (p : ℕ) (b : ℝ) : Prop where
  /-- The precision is one of those that are used. -/
  le_bits : 86 ≤ p
  /-- The root is not negative. -/
  nonneg : 0 ≤ b
  /-- Its fourth power. -/
  pow_four : b ^ 4 = 2 ^ p

namespace IsScale

variable (hb : IsScale p b)
include hb

theorem mul_le : 30000 * p ≤ b := by
  refine (pow_le_pow_iff_left₀ (by positivity) hb.nonneg four_ne_zero).1 ?_
  rw [hb.pow_four]
  exact_mod_cast mul_pow_four_le_two_pow hb.le_bits

theorem one_le : 1 ≤ b := by
  have := hb.mul_le
  have hp : (86 : ℝ) ≤ p := by exact_mod_cast hb.le_bits
  linarith

theorem ulp_mul : ulp p * b ^ 4 = 2 := by
  have := ulp_mul_two_pow p 0
  rw [hb.pow_four]
  simpa using this

/-- The roundings of a short computation with numbers below the cube of the scale do not count. -/
theorem drift_mul_le : drift p (5 * p) * b ^ 3 ≤ 1 / 1000 := by
  have hone := hb.one_le
  have hle := hb.mul_le
  have hulp := hb.ulp_mul
  have hpos := ulp_pos p
  have hcube : 0 < b ^ 3 := by positivity
  have hcount : 2 * ((5 * p : ℕ) : ℝ) * ulp p * b ^ 3 ≤ 1 / 1000 := by
    push_cast
    have hfull : 2 * (5 * (p : ℝ)) * ulp p * b ^ 3 * b = 20 * p := by linear_combination 10 * (p : ℝ) * hulp
    refine le_of_mul_le_mul_right ?_ (by linarith : 0 < b)
    linarith
  have hsmall : 2 * ((5 * p : ℕ) : ℝ) * ulp p ≤ 1 := by
    have hcube1 : 1 ≤ b ^ 3 := one_le_pow₀ hone
    have := le_mul_of_one_le_right (by positivity : 0 ≤ 2 * ((5 * p : ℕ) : ℝ) * ulp p) hcube1
    linarith
  exact (mul_le_mul_of_nonneg_right (drift_le hsmall) hcube.le).trans hcount

theorem ulp_mul_sq_le : ulp p * b ^ 2 ≤ 1 / 1000 := by
  have hone := hb.one_le
  have hlow : (1000000 : ℝ) ≤ b := by
    have := hb.mul_le
    have hp : (86 : ℝ) ≤ p := by exact_mod_cast hb.le_bits
    linarith
  have hulp := hb.ulp_mul
  have hsq : 0 < b ^ 2 := by positivity
  refine le_of_mul_le_mul_right ?_ hsq
  have : b * b ≤ b ^ 2 := (sq b).ge
  nlinarith

/-- A power of the unit with an exponent of at most three eighths of the precision is at most the square of the scale. -/
theorem unit_pow_le {n : ℤ} (hn : 8 * |n| ≤ 3 * p) : |(1 + √2) ^ n| ≤ b ^ 2 ∧ |(1 - √2) ^ n| ≤ b ^ 2 := by
  have hroot : √2 ≤ 1.42 := Real.sqrt_le_iff.2 ⟨by norm_num, by norm_num⟩
  have hroot0 : 0 ≤ √2 := Real.sqrt_nonneg 2
  have hone : 1 ≤ 1 + √2 := by linarith
  rw [Int.abs_eq_natAbs] at hn
  have hbound : (1 + √2) ^ n.natAbs ≤ b ^ 2 := by
    refine (pow_le_pow_iff_left₀ (by positivity) (by positivity) (by norm_num : 6 ≠ 0)).1 ?_
    calc ((1 + √2) ^ n.natAbs) ^ 6 = ((1 + √2) ^ 6) ^ n.natAbs := by rw [← pow_mul, ← pow_mul, mul_comm]
      _ ≤ (2 ^ 8) ^ n.natAbs := by
        refine pow_le_pow_left₀ (by positivity) ?_ _
        exact (pow_le_pow_left₀ (by linarith) (by linarith : 1 + √2 ≤ 2.42) 6).trans (by norm_num)
      _ = 2 ^ (8 * n.natAbs) := (pow_mul 2 8 _).symm
      _ ≤ 2 ^ (3 * p) := pow_le_pow_right₀ one_le_two (by omega)
      _ = (b ^ 2) ^ 6 := by rw [← pow_mul, mul_comm 3 p, pow_mul, ← hb.pow_four, ← pow_mul]
  have hpower {k : ℤ} (hk : k ≤ n.natAbs) : (1 + √2) ^ k ≤ b ^ 2 := by
    refine (zpow_le_zpow_right₀ hone hk).trans ?_
    rwa [zpow_natCast]
  constructor
  · rw [abs_of_pos (by positivity)]
    exact hpower (by omega)
  · rw [← neg_sub √2 1, ← one_add_root_inv, abs_zpow, abs_neg, abs_of_pos (by positivity), inv_zpow']
    exact hpower (by omega)

end IsScale

/-- The ends of an interval and the reciprocal of its length are at most the scale. -/
structure Wide (b : ℝ) (i : Interval (Approx p)) : Prop where
  /-- The ends are numbers of the precision. -/
  fits : i.Fits
  /-- The ends are not too large. -/
  bounded : i.Bounded b
  /-- The interval is not too short. -/
  long : 1 ≤ b * (i.hi.toReal - i.lo.toReal)

namespace Wide

variable {i : Interval (Approx p)} (hb : IsScale p b) (h : Wide b i)
include hb h

theorem lo_lt_hi : i.lo.toReal < i.hi.toReal := by
  by_contra hle
  have := mul_nonpos_of_nonneg_of_nonpos hb.nonneg (sub_nonpos.2 (not_lt.1 hle))
  linarith [h.long]

theorem width_bounds : 1 / 2 ≤ b * i.width.toReal ∧ i.width.toReal ≤ 3 * b := by
  have hp := hb.le_bits
  have hlt := h.lo_lt_hi hb
  have herror := (Interval.rounds_width (by omega) h.fits).error.trans
    (mul_le_mul_of_nonneg_right (by linarith [ulp_le_half (p := p) (by omega)] : ulp p / 2 ≤ 1 / 4) (abs_nonneg _))
  rw [abs_of_pos (sub_pos.2 hlt), abs_le] at herror
  have hlo := abs_le.1 h.bounded.lo
  have hhi := abs_le.1 h.bounded.hi
  refine ⟨?_, by linarith⟩
  have := mul_le_mul_of_nonneg_left
    (by linarith : 1 / 2 * (i.hi.toReal - i.lo.toReal) ≤ i.width.toReal) hb.nonneg
  linarith [h.long]

theorem abs_leadingPlace_le : 4 * |i.width.leadingPlace| ≤ p + 12 := by
  obtain ⟨hlow, hhigh⟩ := h.width_bounds hb
  have hone := hb.one_le
  have hpos : 0 < i.width.toReal := by
    by_contra hneg
    have := mul_nonpos_of_nonneg_of_nonpos hb.nonneg (not_lt.1 hneg)
    linarith
  have hlt := toReal_lt_leadingPlace i.width
  have hle := two_zpow_leadingPlace_le hpos
  generalize i.width.leadingPlace = e at hlt hle ⊢
  have hpower (k : ℤ) : ((2 : ℝ) ^ k) ^ 4 = 2 ^ (4 * k) := by rw [← zpow_natCast, ← zpow_mul, mul_comm]; norm_num
  -- fourth powers are compared, since the fourth power of the scale is a power of two
  have hlower : -(p + 4 : ℤ) < 4 * e := by
    have hprod : 1 < 2 * b * 2 ^ e := by
      have := mul_lt_mul_of_pos_left hlt (by linarith : 0 < b)
      linarith
    have hfour := one_lt_pow₀ hprod four_ne_zero
    rw [mul_pow, mul_pow, hb.pow_four, hpower, ← zpow_natCast, ← zpow_natCast, ← zpow_add₀ two_ne_zero,
      ← zpow_add₀ two_ne_zero] at hfour
    have := (one_lt_zpow_iff_right₀ one_lt_two).1 hfour
    push_cast at this
    omega
  have hupper : 4 * (e - 1) ≤ p + 8 := by
    have hprod : (2 : ℝ) ^ (e - 1) ≤ 2 ^ 2 * b := by linarith
    have hfour := pow_le_pow_left₀ (by positivity) hprod 4
    rw [mul_pow, hb.pow_four, hpower, ← pow_mul, ← zpow_natCast, ← zpow_natCast 2 p, ← zpow_add₀ two_ne_zero,
      zpow_le_zpow_iff_right₀ one_lt_two] at hfour
    push_cast at hfour
    omega
  rw [Int.abs_eq_natAbs]
  omega

end Wide

/-- The bound for the powers of the unit in a piece with wide intervals. -/
theorem eight_mul_abs_balance_le (hb : IsScale p b) {i j : Interval (Approx p)} (hi : Wide b i) (hj : Wide b j) :
    8 * |balance i.width j.width| ≤ 3 * p := by
  have hp := hb.le_bits
  have hfits {i : Interval (Approx p)} (hi : Wide b i) : i.width.Fits ∧ 0 < i.width.toReal :=
    ⟨(Interval.rounds_width (by omega) hi.fits).representable,
      (i.width_pos_iff (by omega)).2 (hi.lo_lt_hi hb)⟩
  exact abs_balance_le (by omega) (hfits hi).1 (hfits hj).1 (hfits hi).2 (hfits hj).2 (hi.abs_leadingPlace_le hb)
    (hj.abs_leadingPlace_le hb)

/-- The candidates of a small piece with wide intervals are all numbers that it accepts. -/
theorem Leaf.mem_ahead_of_wide (hb : IsScale p b) {q : Piece (Approx p)} (hi : Wide b q.i) (hj : Wide b q.j) {x : QuadInt}
    (hx : q.accepts x = true) : x ∈ (Leaf.ofPiece q).Ahead := by
  have hp := hb.le_bits
  have hone := hb.one_le
  have hbalance := eight_mul_abs_balance_le hb hi hj
  obtain ⟨hpower, hbullet⟩ := hb.unit_pow_le hbalance
  have hcube : b * b ^ 2 = b ^ 3 := (pow_succ' b 2).symm
  refine mem_ahead_ofPiece (by omega) hi.bounded hj.bounded hpower hbullet ?_ ?_ hx
  · rw [hcube]
    exact one_le_pow₀ hone
  · rw [hcube]
    refine (mul_le_mul_of_nonneg_right (drift_mono p ?_) (by positivity)).trans (hb.drift_mul_le.trans (by norm_num))
    rw [Int.abs_eq_natAbs] at hbalance
    omega

/-- A large piece is much longer than the least length. -/
theorem long_of_isLarge (hb : IsScale p b) {q : Piece (Approx p)} (hq : q.i.Fits) (hle : q.i.lo.toReal ≤ q.i.hi.toReal)
    (hj : Wide b q.j) (hlarge : q.isLarge = true) : 9 ≤ b * (q.i.hi.toReal - q.i.lo.toReal) := by
  have hp := hb.le_bits
  have hlong := Piece.length_of_isLarge (by omega) hq hle hlarge
  have hpos := (q.j.width_pos_iff (by omega)).2 (hj.lo_lt_hi hb)
  rw [div_le_iff₀ hpos] at hlong
  have := mul_le_mul_of_nonneg_left (hj.width_bounds hb).2 (sub_nonneg.2 hle)
  linarith

/-- Neighbouring numbers never bound a large piece. -/
theorem between_not_isLarge (hb : IsScale p b) {i j : Interval (Approx p)} (hi : i.Bounded b) (hj : Wide b j)
    {x y : Approx p} (hxy : Neighbours x y) (hx : i.lo.toReal ≤ x.toReal) (hy : y.toReal ≤ i.hi.toReal) :
    (between x y j).isLarge = false := by
  have hp := hb.le_bits
  have hlt := hxy.lt
  have hlo := abs_le.1 hi.lo
  have hhi := abs_le.1 hi.hi
  refine Bool.eq_false_iff.2 fun hlarge => ?_
  have hlong := long_of_isLarge (q := between x y j) hb ⟨hxy.left, hxy.right⟩ hlt.le hj hlarge
  have hgap := hxy.sub_le (m := b) (by omega) (abs_le.2 ⟨by linarith, by linarith⟩) (abs_le.2 ⟨by linarith, by linarith⟩)
  have := mul_le_mul_of_nonneg_left hgap hb.nonneg
  have hsq := hb.ulp_mul_sq_le
  dsimp only [between] at hlong
  nlinarith

/-- The halves of a large piece with wide intervals are wide. -/
theorem Wide.halves (hb : IsScale p b) {q : Piece (Approx p)} (hi : Wide b q.i) (hj : Wide b q.j)
    (hlarge : q.isLarge = true) : Wide b q.i.lowerHalf ∧ Wide b q.i.upperHalf := by
  have hp := hb.le_bits
  have hle := (hi.lo_lt_hi hb).le
  have hlong := long_of_isLarge hb hi.fits hle hj hlarge
  have hmlo := Interval.lo_le_midpoint (by omega) hi.fits hle
  have hmhi := Interval.midpoint_le_hi (by omega) hi.fits hle
  have hlo := abs_le.1 hi.bounded.lo
  have hhi := abs_le.1 hi.bounded.hi
  have hmid : |q.i.midpoint.toReal| ≤ b := abs_le.2 ⟨by linarith, by linarith⟩
  have hsq := hb.ulp_mul_sq_le
  have hpos := ulp_pos p
  -- the rounding of the midpoint is far below the least length
  have herror := (Interval.rounds_midpoint (by omega) hi.fits).error
  have hmiddle : |(q.i.lo.toReal + q.i.hi.toReal) / 2| ≤ b := abs_le.2 ⟨by linarith, by linarith⟩
  have hsmall := mul_le_mul_of_nonneg_left (herror.trans (mul_le_mul_of_nonneg_left hmiddle (by positivity))) hb.nonneg
  have hround : b * |q.i.midpoint.toReal - (q.i.lo.toReal + q.i.hi.toReal) / 2| ≤ 1 := by nlinarith
  rw [← abs_of_nonneg hb.nonneg, ← abs_mul, mul_sub, abs_le] at hround
  refine ⟨⟨hi.fits.lowerHalf (by omega), ⟨hi.bounded.lo, hmid⟩, ?_⟩, ⟨hi.fits.upperHalf (by omega), ⟨hmid, hi.bounded.hi⟩, ?_⟩⟩
  · change 1 ≤ b * (q.i.midpoint.toReal - q.i.lo.toReal)
    linarith
  · change 1 ≤ b * (q.i.hi.toReal - q.i.midpoint.toReal)
    linarith

theorem Piece.not_accepts_of_isEmpty (hp : 2 ≤ p) {q : Piece (Approx p)} {x : QuadInt} (hx : q.accepts x = true) :
    q.isEmpty = false := by
  obtain ⟨hi, hj⟩ := within_of_accepts hp hx
  refine Bool.eq_false_iff.2 fun hempty => ?_
  rcases (Piece.isEmpty_iff hp q).1 hempty with h | h
  · linarith [hi.lo, hi.hi]
  · linarith [hj.lo, hj.hi]

/-- However often a piece with wide intervals is split, what it accepts is offered. -/
theorem offers_of_accepts (hb : IsScale p b) {q : Piece (Approx p)} (h : Settles q) (hi : Wide b q.i) (hj : Wide b q.j)
    {x : QuadInt} (hx : q.accepts x = true) : Offers x q := by
  have hp := hb.le_bits
  induction h with
  | empty hempty =>
    rw [Piece.not_accepts_of_isEmpty (by omega) hx] at hempty
    cases hempty
  | small hempty hlarge => exact .small hempty hlarge (Leaf.mem_ahead_of_wide hb hi hj hx)
  | halve hempty hlarge _ _ ihl ihu =>
    obtain ⟨hlower, hupper⟩ := hi.halves hb hj hlarge
    rcases (Piece.accepts_iff_halves (by omega) hi.fits (hi.lo_lt_hi hb).le x).1 hx with hx | hx
    · exact .lower hempty hlarge (ihl hlower hj hx)
    · exact .upper hempty hlarge (ihu hupper hj hx)

theorem isScale_bits (digits : ℕ) :
    IsScale (Precision.ofDigits digits).bits (2 ^ (((Precision.ofDigits digits).bits : ℝ) / 4)) where
  le_bits := Precision.le_bits_ofDigits digits
  nonneg := by positivity
  pow_four := by
    rw [← Real.rpow_natCast, ← Real.rpow_mul zero_le_two, ← Real.rpow_natCast]
    congr 1
    push_cast
    ring

/-- In any part of a run no number is yielded twice, and every number belongs to the first interval and its conjugate to the
second. If the ends are at most the fourth root of `2 ^ bits` and the lengths at least its reciprocal, the
enumeration ends and yields every such number. -/
theorem plain_sound_complete (digits : ℕ) {i j : Interval (Approx (Precision.ofDigits digits).bits)} (hi : i.Fits) :
    (∀ out t, Run step (plain i j) out t →
      out.Nodup ∧ ∀ x ∈ out, i.contains x.eval = true ∧ j.contains x.bullet.eval = true) ∧
    (j.Fits → i.Bounded (2 ^ (((Precision.ofDigits digits).bits : ℝ) / 4)) →
      j.Bounded (2 ^ (((Precision.ofDigits digits).bits : ℝ) / 4)) →
      2 ^ (-(((Precision.ofDigits digits).bits : ℝ) / 4)) ≤ i.hi.toReal - i.lo.toReal →
      2 ^ (-(((Precision.ofDigits digits).bits : ℝ) / 4)) ≤ j.hi.toReal - j.lo.toReal →
      ∃ out, Yields step (plain i j) out ∧
        ∀ x, i.contains x.eval = true → j.contains x.bullet.eval = true → x ∈ out) := by
  have hb := isScale_bits digits
  have hp := hb.le_bits
  constructor
  · intro out t h
    obtain ⟨hnodup, hmem⟩ := run_withLift (by omega) hi h
    refine ⟨hnodup, fun x hx => ?_⟩
    obtain ⟨y, rfl, hy⟩ := hmem x hx
    exact hy
  · intro hj hib hjb hilong hjlong
    have hlong {v : ℝ} (hv : 2 ^ (-(((Precision.ofDigits digits).bits : ℝ) / 4)) ≤ v) :
        1 ≤ 2 ^ (((Precision.ofDigits digits).bits : ℝ) / 4) * v := by
      rw [Real.rpow_neg zero_le_two] at hv
      exact (mul_inv_cancel₀ (by positivity)).ge.trans (mul_le_mul_of_nonneg_left hv hb.nonneg)
    have hwide : Wide _ i := ⟨hi, hib, hlong hilong⟩
    have hwide' : Wide _ j := ⟨hj, hjb, hlong hjlong⟩
    have hsettles : Settles (⟨i, j, false⟩ : Piece _) :=
      settles_of_not_isLarge (by omega) hi (fun x y hxy => between_not_isLarge hb hib hwide' hxy) false
    obtain ⟨out, hrun, hout⟩ := hsettles.run [] .plain
    refine ⟨out, ⟨_, hrun, rfl⟩, fun x hx hx' => hout x ?_⟩
    refine offers_of_accepts (q := ⟨i, j, false⟩) hb hsettles hwide hwide' ?_
    rw [Interval.contains_iff (by omega)] at hx
    exact (Piece.accepts_iff (by omega) _ x).2 ⟨hx.1, hx.2, hx'⟩

/-- The unit intervals at sixteen digits: the enumeration comes to its end, and one is among its numbers. -/
theorem plain_sound_complete_unit : ∃ out, Yields step (plain ⟨ofInt 0, ofInt 1⟩ ⟨ofInt 0, ofInt 1⟩ :
    State (Approx (Precision.ofDigits 16).bits)) out ∧ out.Nodup ∧ 1 ∈ out := by
  have hp := Precision.le_bits_ofDigits 16
  have hscale := (isScale_bits 16).one_le
  have hzero := toReal_ofInt (p := (Precision.ofDigits 16).bits) (n := 0) (by omega)
    (by rw [Int.cast_zero]; exact Representable.zero)
  have hone := toReal_ofInt (p := (Precision.ofDigits 16).bits) (n := 1) (by omega)
    (by rw [Int.cast_one]; exact Representable.one)
  push_cast at hzero hone
  have hfits := Interval.fits_ofInt (p := (Precision.ofDigits 16).bits) 0 1
  have hbounded : (⟨ofInt 0, ofInt 1⟩ : Interval (Approx (Precision.ofDigits 16).bits)).Bounded
      (2 ^ (((Precision.ofDigits 16).bits : ℝ) / 4)) := by
    refine ⟨?_, ?_⟩
    · rw [hzero, abs_zero]
      linarith
    · rw [hone, abs_one]
      exact hscale
  have hlong : (2 : ℝ) ^ (-(((Precision.ofDigits 16).bits : ℝ) / 4)) ≤
      (ofInt 1 : Approx (Precision.ofDigits 16).bits).toReal - (ofInt 0 : Approx (Precision.ofDigits 16).bits).toReal := by
    rw [hzero, hone, sub_zero, Real.rpow_neg zero_le_two]
    exact inv_le_one_of_one_le₀ hscale
  obtain ⟨hsound, hcomplete⟩ := plain_sound_complete 16 (j := ⟨ofInt 0, ofInt 1⟩) hfits
  obtain ⟨out, hout, hall⟩ := hcomplete hfits hbounded hbounded hlong hlong
  obtain ⟨t, hrun, _⟩ := id hout
  exact ⟨out, hout, (hsound out t hrun).1, hall 1 (by decide +kernel) (by decide +kernel)⟩

end Line

end CliffordT

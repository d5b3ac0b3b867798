import CliffordT.Proofs.Grid.Balance
import CliffordT.Proofs.Grid.Soundness
import CliffordT.Working.Embedding

/-!
The candidates of a small piece are enough.

The bounds of the ranges are computed from scaled ends, and every number on the way is rounded. All of these errors
together are far below the one step by which each range is longer on both sides, as long as the roundings of the
largest number on the way are. So every number that the piece accepts, scaled, is among the candidates.
-/

namespace CliffordT

open Approx

variable {p : ℕ}

/-! ### Intervals up to an error -/

namespace Interval

variable {i : Interval (Approx p)} {m δ x r : ℝ} {f : Approx p} {k : ℕ}

/-- Both ends are at most `m` in size. -/
structure Bounded (i : Interval (Approx p)) (m : ℝ) : Prop where
  /-- The lower end. -/
  lo : |i.lo.toReal| ≤ m
  /-- The upper end. -/
  hi : |i.hi.toReal| ≤ m

/-- A real number lies in the interval, up to an error at the ends. -/
structure Within (i : Interval (Approx p)) (δ x : ℝ) : Prop where
  /-- The lower end. -/
  lo : i.lo.toReal ≤ x + δ
  /-- The upper end. -/
  hi : x ≤ i.hi.toReal + δ

theorem Within.mono (h : i.Within δ x) {ε : ℝ} (hle : δ ≤ ε) : i.Within ε x := ⟨by linarith [h.lo], by linarith [h.hi]⟩

theorem Within.size_le (h : i.Within 0 x) (hi : i.Bounded m) : |x| ≤ m := by
  have hlo := abs_le.1 hi.lo
  have hhi := abs_le.1 hi.hi
  exact abs_le.2 ⟨by linarith [h.lo], by linarith [h.hi]⟩

theorem Within.of_near (h : i.Within 0 x) {y : ℝ} (hy : |x - y| ≤ δ) : i.Within δ y := by
  have := abs_le.1 hy
  exact ⟨by linarith [h.lo], by linarith [h.hi]⟩

theorem bounded_scale (hi : i.Bounded m) (hf : Near k |r| f r) (hk : drift p (k + 1) ≤ 1) :
    (i.scale f).Bounded (2 * (m * |r|)) := by
  have hend {y : Approx p} (hy : |y.toReal| ≤ m) : |(y * f).toReal| ≤ 2 * (m * |r|) := by
    have hnear := (Near.exact y).mul hf
    rw [zero_add] at hnear
    have hm : |y.toReal| * |r| ≤ m * |r| := mul_le_mul_of_nonneg_right hy (abs_nonneg r)
    exact hnear.abs_le.trans (mul_le_mul (by linarith) hm (by positivity) (by norm_num))
  rw [scale]
  split
  · exact ⟨hend hi.hi, hend hi.lo⟩
  · exact ⟨hend hi.lo, hend hi.hi⟩

/-- Scaling keeps a number within an interval; the factor has the sign of the exact one. -/
theorem Within.scale (h : i.Within δ x) (hi : i.Bounded m) (hf : Near k |r| f r) (hr : r ≠ 0) (hk : drift p k < 1) :
    (i.scale f).Within ((drift p (k + 1) * m + δ) * |r|) (x * r) := by
  have hsign : Scalar.isNegative f = true ↔ r < 0 := by
    have herror := abs_le.1 hf.error
    have hpos := abs_pos.2 hr
    have hsmall : drift p k * |r| < |r| := (mul_lt_mul_of_pos_right hk hpos).trans_eq (one_mul _)
    rw [isNegative_iff]
    rcases lt_or_gt_of_ne hr with hneg | hpos
    · rw [abs_of_neg hneg] at herror hsmall
      exact ⟨fun _ => hneg, fun _ => by linarith⟩
    · rw [abs_of_pos hpos] at herror hsmall
      exact ⟨fun h => by linarith, fun h => absurd h hpos.not_gt⟩
  have hend {y : Approx p} (hy : |y.toReal| ≤ m) : |(y * f).toReal - y.toReal * r| ≤ drift p (k + 1) * m * |r| := by
    have hnear := (Near.exact y).mul hf
    rw [zero_add] at hnear
    refine hnear.error.trans ?_
    rw [mul_assoc]
    exact mul_le_mul_of_nonneg_left (mul_le_mul_of_nonneg_right hy (abs_nonneg r)) (drift_nonneg p _)
  have hlo := abs_le.1 (hend hi.lo)
  have hhi := abs_le.1 (hend hi.hi)
  rw [Interval.scale]
  split
  · next hneg =>
    have hr' := hsign.1 hneg
    have h₁ := mul_le_mul_of_nonpos_right h.lo hr'.le
    have h₂ := mul_le_mul_of_nonpos_right h.hi hr'.le
    rw [abs_of_neg hr'] at hlo hhi ⊢
    constructor <;> linarith
  · next hneg =>
    have hr' : 0 < r := lt_of_le_of_ne (not_lt.1 (mt hsign.2 hneg)) hr.symm
    have h₁ := mul_le_mul_of_nonneg_right h.lo hr'.le
    have h₂ := mul_le_mul_of_nonneg_right h.hi hr'.le
    rw [abs_of_pos hr'] at hlo hhi ⊢
    constructor <;> linarith

/-- If the roundings are small against the sizes, a scaled interval holds what it held before, scaled, and has bounded ends. -/
theorem scale_spec {d c : ℝ} (hi : i.Bounded m) (hf : Near k |r| f r) (hr : r ≠ 0) (hrc : |r| ≤ c) (hmc : 1 ≤ m * c)
    (hk : drift p (k + 1) ≤ d) (hbudget : d * (m * c) ≤ 1 / 100) (hx : i.Within (d * (2 * m)) x) :
    (i.scale f).Within (1 / 4) (x * r) ∧ (i.scale f).Bounded (2 * (m * c)) := by
  have hm : 0 ≤ m := (abs_nonneg _).trans hi.lo
  have hd0 : 0 ≤ d := (drift_nonneg p _).trans hk
  have hd1 : d ≤ 1 / 100 := (le_mul_of_one_le_right hd0 hmc).trans hbudget
  have hmr : m * |r| ≤ m * c := mul_le_mul_of_nonneg_left hrc hm
  have hdr : d * (m * |r|) ≤ d * (m * c) := mul_le_mul_of_nonneg_left hmr hd0
  have hlt : drift p k < 1 := ((drift_mono p (Nat.le_succ k)).trans hk).trans_lt (by linarith)
  refine ⟨(hx.scale hi hf hr hlt).mono ?_, ?_⟩
  · have := mul_le_mul_of_nonneg_right hk (by positivity : 0 ≤ m * |r|)
    linarith
  · have hb := bounded_scale hi hf (hk.trans (by linarith))
    exact ⟨hb.lo.trans (by linarith), hb.hi.trans (by linarith)⟩

end Interval

/-! ### Values of ring elements -/

namespace QuadInt

/-- A value is off by three roundings of the sum of the absolute values of its parts. -/
theorem near_eval (hp : 1 ≤ p) (x : QuadInt) :
    Near 3 (|(x.a : ℝ)| + √2 * |(x.b : ℝ)|) (x.eval : Approx p) (realHom x) := by
  have hroot := (Near.rootTwo hp).scale x.b
  have := ((Near.ofInt x.a).mono (k := 2) (by norm_num) le_rfl).add hp hroot
  rwa [mul_comm √2 (x.b : ℝ), ← realHom_apply] at this

theorem realHom_bullet (x : QuadInt) : realHom x.bullet = x.a - x.b * √2 := by
  rw [realHom_apply, bullet_a, bullet_b]
  push_cast
  ring

/-- Either in the number or in its conjugate the parts have the same sign, so both values bound the parts. -/
theorem abs_add_le_of_eval (hp : 1 ≤ p) (hdrift : drift p 3 ≤ 1 / 2) {x : QuadInt} {m : ℝ}
    (hx : |(x.eval : Approx p).toReal| ≤ m) (hb : |(x.bullet.eval : Approx p).toReal| ≤ m) :
    |(x.a : ℝ)| + √2 * |(x.b : ℝ)| ≤ 2 * m := by
  have hsize {y : QuadInt} (hy : |(y.eval : Approx p).toReal| ≤ m)
      (hsame : |realHom y| = |(y.a : ℝ)| + √2 * |(y.b : ℝ)|) : |(y.a : ℝ)| + √2 * |(y.b : ℝ)| ≤ 2 * m := by
    have hnear := near_eval hp y
    have htri := abs_sub_abs_le_abs_sub (realHom y) (y.eval : Approx p).toReal
    rw [abs_sub_comm, hsame] at htri
    have := mul_le_mul_of_nonneg_right hdrift hnear.nonneg
    linarith [hnear.error]
  have hroot : |(x.b : ℝ) * √2| = √2 * |(x.b : ℝ)| := by rw [abs_mul, abs_of_nonneg (Real.sqrt_nonneg 2), mul_comm]
  rcases le_total 0 ((x.a : ℝ) * (x.b * √2)) with hsign | hsign
  · refine hsize hx ?_
    rw [realHom_apply, ← hroot]
    exact (abs_add_eq_add_abs_iff _ _).2 (mul_nonneg_iff.1 hsign)
  · have hb' : |((x.bullet.b : ℤ) : ℝ)| = |(x.b : ℝ)| := by rw [bullet_b, Int.cast_neg, abs_neg]
    rw [← hb']
    refine hsize hb ?_
    rw [realHom_bullet, hb', ← hroot, ← abs_neg ((x.b : ℝ) * √2), sub_eq_add_neg]
    refine (abs_add_eq_add_abs_iff _ _).2 (mul_nonneg_iff.1 ?_)
    rw [mul_neg]
    exact neg_nonneg.2 hsign

theorem realHom_bullet_lambdaPow (n : ℤ) : realHom (lambdaPow n).bullet = (1 - √2) ^ n := by
  rw [← bulletHom_apply, ← RingHom.comp_apply, map_lambdaPow, RingHom.comp_apply, bulletHom_apply, realHom_bullet]
  change (((1 : ℤ) : ℝ) - ((1 : ℤ) : ℝ) * √2) ^ n = _
  rw [Int.cast_one, one_mul]

end QuadInt

/-! ### The ranges of a piece -/

namespace Line

open QuadInt

theorem Piece.within_of_accepts (hp : 2 ≤ p) {q : Piece (Approx p)} {x : QuadInt} (h : q.accepts x = true) :
    q.i.Within 0 (x.eval : Approx p).toReal ∧ q.j.Within 0 (x.bullet.eval : Approx p).toReal := by
  obtain ⟨hlo, hhi, hj⟩ := (accepts_iff hp q x).1 h
  rw [Interval.contains_iff hp] at hj
  refine ⟨⟨?_, by linarith⟩, ⟨by linarith, by linarith⟩⟩
  split at hlo <;> linarith

namespace Leaf

variable {l : Leaf (Approx p)} {s : ℝ} {y : QuadInt}

/-- The scaled intervals hold a number and its conjugate up to a small error, and no number on the way to the ranges is so large
that its roundings count. -/
structure Holds (i j : Interval (Approx p)) (y : QuadInt) (s : ℝ) : Prop where
  /-- The number. -/
  first : i.Within (1 / 4) (realHom y)
  /-- Its conjugate. -/
  second : j.Within (1 / 4) (realHom y.bullet)
  /-- The ends of the first interval. -/
  firstBounded : i.Bounded s
  /-- The ends of the second interval. -/
  secondBounded : j.Bounded s
  /-- The part of the number with the root. -/
  part : √2 * |(y.b : ℝ)| ≤ s
  /-- What roundings of these numbers add up to. -/
  budget : drift p 6 * (2 * s) ≤ 1 / 4

theorem Holds.within {i j : Interval (Approx p)} (h : Holds i j y s) :
    i.Within (1 / 4) (y.a + y.b * √2) ∧ j.Within (1 / 4) (y.a - y.b * √2) :=
  ⟨realHom_apply y ▸ h.first, realHom_bullet y ▸ h.second⟩

theorem Holds.mem_row (hp : 2 ≤ p) (h : Holds l.i l.j y s) : (l.withB y.b).a ≤ y.a ∧ y.a ≤ (l.withB y.b).aLast := by
  have hroot : Near 2 s ((Scalar.scale Scalar.rootTwo y.b : Approx p)) (y.b * √2) := by
    have := (Near.rootTwo (p := p) (by omega)).scale y.b
    rw [mul_comm √2 (y.b : ℝ)] at this
    exact this.mono le_rfl h.part
  have hbudget : drift p 3 * (s + s) ≤ 1 / 4 := by
    rw [← two_mul]
    refine le_trans (mul_le_mul_of_nonneg_right (drift_mono p (by norm_num)) ?_) h.budget
    linarith [hroot.nonneg]
  have hsub {e : Approx p} (he : |e.toReal| ≤ s) :
      |(e - Scalar.scale Scalar.rootTwo y.b).toReal - (e.toReal - y.b * √2)| ≤ 1 / 4 :=
    (((Near.exact e).mono (Nat.zero_le 2) he).sub (by omega) hroot).error.trans hbudget
  have hadd {e : Approx p} (he : |e.toReal| ≤ s) :
      |(e + Scalar.scale Scalar.rootTwo y.b).toReal - (e.toReal + y.b * √2)| ≤ 1 / 4 :=
    (((Near.exact e).mono (Nat.zero_le 2) he).add (by omega) hroot).error.trans hbudget
  obtain ⟨hfirst, hsecond⟩ := h.within
  have h₁ := abs_le.1 (hsub h.firstBounded.lo)
  have h₂ := abs_le.1 (hadd h.secondBounded.lo)
  have h₃ := abs_le.1 (hsub h.firstBounded.hi)
  have h₄ := abs_le.1 (hadd h.secondBounded.hi)
  constructor
  · change Approx.ceil _ - 1 ≤ y.a
    rw [sub_le_iff_le_add, ceil_eq, Int.ceil_le, toReal_larger hp, max_le_iff]
    push_cast
    constructor <;> linarith [hfirst.lo, hsecond.lo]
  · change y.a ≤ Approx.floor _ + 1
    rw [← sub_le_iff_le_add, floor_eq, Int.le_floor, toReal_smaller hp, le_min_iff]
    push_cast
    constructor <;> linarith [hfirst.hi, hsecond.hi]

theorem Holds.mem_rows (hp : 4 ≤ p) {i j : Interval (Approx p)} (h : Holds i j y s) :
    ((i.lo - j.hi) / Scalar.scale Scalar.rootTwo 2).ceil - 1 ≤ y.b ∧
      y.b ≤ ((i.hi - j.lo) / Scalar.scale Scalar.rootTwo 2).floor + 1 := by
  have hs : 0 ≤ s := (abs_nonneg _).trans h.firstBounded.lo
  have hroot : (1 : ℝ) ≤ √2 := Real.one_le_sqrt.2 (by norm_num)
  have htwo : Near 2 |√2 * 2| (Scalar.scale Scalar.rootTwo 2 : Approx p) (√2 * 2) := by
    have := (Near.rootTwo (p := p) (by omega)).scale 2
    rw [abs_mul, abs_of_nonneg (Real.sqrt_nonneg 2)]
    exact_mod_cast this
  have htwo0 : (0 : ℝ) < √2 * 2 := by positivity
  have hdrift : drift p 2 ≤ 1 / 2 := by
    have hulp : ulp p ≤ 1 / 8 := by
      rw [ulp_eq, show (1 / 8 : ℝ) = 2 ^ (-3 : ℤ) by norm_num]
      exact zpow_le_zpow_right₀ one_le_two (by omega)
    refine (drift_le ?_).trans ?_ <;> push_cast <;> linarith
  have hquot {e f : Approx p} (he : |e.toReal| ≤ s) (hf : |f.toReal| ≤ s) :
      |((e - f) / Scalar.scale Scalar.rootTwo 2).toReal - (e.toReal - f.toReal) / (√2 * 2)| ≤ 1 / 4 := by
    have hnear := (((Near.exact e).sub (by omega) (Near.exact f)).div (by omega) htwo htwo0.ne' hdrift).error
    refine hnear.trans (le_trans (mul_le_mul_of_nonneg_left ?_ (drift_nonneg p _)) h.budget)
    rw [abs_of_pos htwo0, div_le_iff₀ htwo0]
    have := mul_le_mul_of_nonneg_left (by linarith : 1 ≤ √2 * 2) (by linarith : 0 ≤ 2 * s)
    linarith
  obtain ⟨hfirst, hsecond⟩ := h.within
  have hlow : (i.lo.toReal - j.hi.toReal) / (√2 * 2) ≤ y.b + 1 / 4 := by
    rw [div_le_iff₀ htwo0]
    linarith [hfirst.lo, hsecond.hi]
  have hhigh : y.b - 1 / 4 ≤ (i.hi.toReal - j.lo.toReal) / (√2 * 2) := by
    rw [le_div_iff₀ htwo0]
    linarith [hfirst.hi, hsecond.lo]
  have h₁ := abs_le.1 (hquot h.firstBounded.lo h.secondBounded.hi)
  have h₂ := abs_le.1 (hquot h.firstBounded.hi h.secondBounded.lo)
  constructor
  · rw [sub_le_iff_le_add, ceil_eq, Int.ceil_le]
    push_cast
    linarith
  · rw [← sub_le_iff_le_add, floor_eq, Int.le_floor]
    push_cast
    linarith

/-- The scaled intervals of a piece hold what it accepts, scaled, as long as the roundings of their ends do not count. -/
theorem holds_of_accepts (hp : 4 ≤ p) {q : Piece (Approx p)} {m c : ℝ} {n : ℤ} (hi : q.i.Bounded m) (hj : q.j.Bounded m)
    (hpower : |(1 + √2) ^ n| ≤ c) (hbullet : |(1 - √2) ^ n| ≤ c) (hmc : 1 ≤ m * c)
    (hbudget : drift p (13 * n.natAbs + 6) * (m * c) ≤ 1 / 100) {x : QuadInt} (hx : q.accepts x = true) :
    Holds (q.i.scale (lambdaPowers n).1) (q.j.scale (lambdaPowers n).2) (x * lambdaPow n) (2 * (m * c)) := by
  set d := drift p (13 * n.natAbs + 6) with hd
  have hd0 : 0 ≤ d := drift_nonneg p _
  have hd1 : d ≤ 1 / 100 := (le_mul_of_one_le_right hd0 hmc).trans hbudget
  have hdrift {k : ℕ} (hk : k ≤ 13 * n.natAbs + 6) : drift p k ≤ d := drift_mono p hk
  have hm : 0 ≤ m := (abs_nonneg _).trans hi.lo
  -- the number and its conjugate lie in the intervals, up to the roundings of their values
  obtain ⟨hin, hjn⟩ := Piece.within_of_accepts (by omega) hx
  have hparts : |(x.a : ℝ)| + √2 * |(x.b : ℝ)| ≤ 2 * m :=
    abs_add_le_of_eval (by omega) ((hdrift (by omega)).trans (by linarith)) (hin.size_le hi) (hjn.size_le hj)
  have hparts' : |(x.bullet.a : ℝ)| + √2 * |(x.bullet.b : ℝ)| ≤ 2 * m := by
    rwa [bullet_a, bullet_b, Int.cast_neg, abs_neg]
  have hvalue {i : Interval (Approx p)} {z : QuadInt} (hz : i.Within 0 (z.eval : Approx p).toReal)
      (hparts : |(z.a : ℝ)| + √2 * |(z.b : ℝ)| ≤ 2 * m) : i.Within (d * (2 * m)) (realHom z) ∧ |realHom z| ≤ 2 * m := by
    have hnear := near_eval (p := p) (by omega) z
    exact ⟨hz.of_near (hnear.error.trans (mul_le_mul (hdrift (by omega)) hparts hnear.nonneg hd0)),
      hnear.size.trans hparts⟩
  obtain ⟨hwithin, hsize⟩ := hvalue hin hparts
  obtain ⟨hwithin', hsize'⟩ := hvalue hjn hparts'
  -- so they do after scaling
  have hroot : (1 : ℝ) < √2 := Real.one_lt_sqrt_two
  obtain ⟨hnear, hnear'⟩ := near_lambdaPowers (p := p) (by omega) n
  obtain ⟨hfirst, hfirstb⟩ := Interval.scale_spec hi hnear (zpow_ne_zero n (by linarith)) hpower hmc (hdrift (by omega))
    hbudget hwithin
  obtain ⟨hsecond, hsecondb⟩ := Interval.scale_spec hj hnear' (zpow_ne_zero n (by linarith)) hbullet hmc
    (hdrift (by omega)) hbudget hwithin'
  have hscale {z r : ℝ} (hz : |z| ≤ 2 * m) (hr : |r| ≤ c) : |z * r| ≤ 2 * (m * c) := by
    rw [abs_mul, ← mul_assoc]
    exact mul_le_mul hz hr (abs_nonneg r) (by linarith)
  replace hsize := hscale hsize hpower
  replace hsize' := hscale hsize' hbullet
  rw [← realHom_lambdaPow, ← map_mul] at hfirst hsize
  rw [← realHom_bullet_lambdaPow, ← map_mul, ← bullet_mul] at hsecond hsize'
  refine ⟨hfirst, hsecond, hfirstb, hsecondb, ?_, ?_⟩
  · -- the part with the root is half the difference of the number and its conjugate
    rw [realHom_apply] at hsize
    rw [realHom_bullet] at hsize'
    rw [← abs_of_nonneg (Real.sqrt_nonneg 2), ← abs_mul]
    have h₁ := abs_le.1 hsize
    have h₂ := abs_le.1 hsize'
    exact abs_le.2 ⟨by linarith, by linarith⟩
  · have := mul_le_mul_of_nonneg_right (hdrift (by omega) : drift p 6 ≤ d) (by linarith : 0 ≤ m * c)
    linarith

/-- The candidates of a piece are all numbers that it accepts, as long as the roundings of the scaled ends do not count. -/
theorem mem_ahead_ofPiece (hp : 4 ≤ p) {q : Piece (Approx p)} {m c : ℝ} (hi : q.i.Bounded m) (hj : q.j.Bounded m)
    (hpower : |(1 + √2) ^ balance q.i.width q.j.width| ≤ c) (hbullet : |(1 - √2) ^ balance q.i.width q.j.width| ≤ c)
    (hmc : 1 ≤ m * c) (hbudget : drift p (13 * (balance q.i.width q.j.width).natAbs + 6) * (m * c) ≤ 1 / 100)
    {x : QuadInt} (hx : q.accepts x = true) : x ∈ (Leaf.ofPiece q).Ahead := by
  have hholds := holds_of_accepts hp hi hj hpower hbullet hmc hbudget hx
  set n := balance q.i.width q.j.width with hn
  set y := x * lambdaPow n with hy
  have hback : y * lambdaPow (-n) = x := by rw [hy, mul_assoc, UnitLog.lambdaPow_mul_neg, mul_one]
  obtain ⟨hrow, hrow'⟩ := Holds.mem_rows hp hholds
  refine ⟨hx, y.a, y.b, hback.symm, hrow', ?_⟩
  obtain ⟨hmem, hmem'⟩ := Holds.mem_row (l := Leaf.ofPiece q) (by omega) hholds
  rcases (show (Leaf.ofPiece q).b ≤ y.b from hrow).eq_or_lt with heq | hlt
  · refine .inl ⟨heq.symm, ?_, ?_⟩
    · exact (congrArg (fun b => ((Leaf.ofPiece q).withB b).a) heq).trans_le hmem
    · exact hmem'.trans_eq (congrArg (fun b => ((Leaf.ofPiece q).withB b).aLast) heq.symm)
  · exact .inr ⟨hlt, hmem, hmem'⟩

end Leaf

end Line

end CliffordT

import CliffordT.Proofs.Grid.Line
import CliffordT.Proofs.Plane.Interval
import CliffordT.Proofs.Working.Coarse
import CliffordT.Working.Precision

/-!
When the splitting of intervals comes to an end.

A midpoint is rounded. Between two neighbouring numbers of the precision there is none, so one half of such a piece is the
piece itself, and if it is large it is split for ever. This is the only way in which splitting can go on: a midpoint
strictly between the ends is away from both by a distance that depends on the area and the precision only.
-/

namespace CliffordT

namespace Approx

variable {p : ℕ}

/-- Two numbers of the precision with none between them. -/
structure Neighbours (x y : Approx p) : Prop where
  /-- The lower number. -/
  left : x.Fits
  /-- The upper number. -/
  right : y.Fits
  /-- Their order. -/
  lt : x.toReal < y.toReal
  /-- Every other number is below or above. -/
  gap : ∀ z : Approx p, z.Fits → z.toReal ≤ x.toReal ∨ y.toReal ≤ z.toReal

/-- Neighbours are nearly equal. -/
theorem Neighbours.sub_le (hp : 1 ≤ p) {x y : Approx p} (h : Neighbours x y) {m : ℝ} (hx : |x.toReal| ≤ m)
    (hy : |y.toReal| ≤ m) : y.toReal - x.toReal ≤ ulp p * m := by
  have hfits : (⟨x, y⟩ : Interval (Approx p)).Fits := ⟨h.left, h.right⟩
  have herror := (Interval.rounds_midpoint hp hfits).error
  have hmid : |(x.toReal + y.toReal) / 2| ≤ m := by
    rw [abs_le] at hx hy ⊢
    constructor <;> linarith
  have hbound := herror.trans (mul_le_mul_of_nonneg_left hmid (by have := ulp_pos p; positivity))
  rw [abs_le] at hbound
  dsimp only at hbound
  rcases h.gap _ (Interval.midpoint_fits hp hfits) with hlow | hhigh
  · linarith [hbound.1]
  · linarith [hbound.2]

/-- Positive numbers that differ by twice the least distance are neighbours. -/
theorem neighbours_of_sub_le (hp : 1 ≤ p) {x y : Approx p} (hx : x.Fits) (hy : y.Fits) (hpos : 0 < x.toReal)
    (hlt : x.toReal < y.toReal) (h : (y.toReal - x.toReal) * 2 ^ p ≤ 2 * x.toReal) : Neighbours x y := by
  refine ⟨hx, hy, hlt, fun z hz => ?_⟩
  by_contra hbetween
  rw [not_or, not_le, not_le] at hbetween
  have hlow := hx.abs_le_abs_sub_mul hp hz hbetween.1.ne
  have hhigh := hy.abs_le_abs_sub_mul hp hz hbetween.2.ne'
  rw [abs_of_pos hpos, abs_of_neg (sub_neg.2 hbetween.1)] at hlow
  rw [abs_of_pos (hpos.trans hlt), abs_of_pos (sub_pos.2 hbetween.2)] at hhigh
  linarith

end Approx

namespace Interval

variable {p : ℕ}

theorem sign_width (hp : 2 ≤ p) (i : Interval (Approx p)) :
    compare i.width.mant 0 = compare i.hi.toReal i.lo.toReal := Approx.sign_sub_eq hp i.hi i.lo

theorem width_pos_iff (hp : 2 ≤ p) (i : Interval (Approx p)) : 0 < i.width.toReal ↔ i.lo.toReal < i.hi.toReal := by
  rw [Approx.toReal_pos_iff, ← compare_gt_iff_gt, sign_width hp, compare_gt_iff_gt]

theorem width_nonneg_iff (hp : 2 ≤ p) (i : Interval (Approx p)) :
    0 ≤ i.width.toReal ↔ i.lo.toReal ≤ i.hi.toReal := by
  rw [← not_lt, ← not_lt, Approx.toReal_neg_iff, ← compare_lt_iff_lt, sign_width hp, compare_lt_iff_lt]

end Interval

namespace Line

open Approx Progress

variable {p : ℕ} {q r : Piece (Approx p)}

namespace Piece

theorem isLarge_iff (q : Piece (Approx p)) : q.isLarge = true ↔ 64 < (q.i.width * q.j.width).coarsen.toReal :=
  Coarse.ofInt_less_iff 64 (by decide) _

theorem isEmpty_iff (hp : 2 ≤ p) (q : Piece (Approx p)) :
    q.isEmpty = true ↔ q.i.hi.toReal < q.i.lo.toReal ∨ q.j.hi.toReal < q.j.lo.toReal := by
  rw [isEmpty, Bool.or_eq_true, Interval.isEmpty_iff hp, Interval.isEmpty_iff hp]

/-- The second interval of a large piece is not a point. -/
theorem width_pos_of_isLarge (hp : 2 ≤ p) (hle : q.i.lo.toReal ≤ q.i.hi.toReal) (h : q.isLarge = true) :
    0 < q.j.width.toReal := by
  rw [isLarge_iff] at h
  by_contra hneg
  have hprod := mul_nonpos_of_nonneg_of_nonpos ((q.i.width_nonneg_iff hp).2 hle) (not_lt.1 hneg)
  linarith [coarsen_nonpos ((rounds_mul _ _).nonpos (by omega) hprod)]

/-- A piece that contains a large one is large. -/
theorem isLarge_mono (hp : 2 ≤ p) (hq : q.i.Fits) (hr : r.i.Fits) (hj : q.j = r.j)
    (hle : q.i.lo.toReal ≤ q.i.hi.toReal) (hlo : r.i.lo.toReal ≤ q.i.lo.toReal) (hhi : q.i.hi.toReal ≤ r.i.hi.toReal)
    (h : q.isLarge = true) : r.isLarge = true := by
  have hwidth := width_pos_of_isLarge hp hle h
  rw [isLarge_iff] at h ⊢
  have hi : q.i.width.toReal ≤ r.i.width.toReal :=
    (Interval.rounds_width (by omega) hq).mono (by omega) (Interval.rounds_width (by omega) hr) (by linarith)
  rw [← hj]
  have hprod := (rounds_mul q.i.width q.j.width).mono (by omega) (rounds_mul r.i.width q.j.width)
    (mul_le_mul_of_nonneg_right hi hwidth.le)
  have hnonneg : 0 ≤ (q.i.width * q.j.width).toReal := by
    by_contra hneg
    linarith [coarsen_nonpos (not_le.1 hneg).le]
  exact h.trans_le (coarsen_mono hnonneg hprod)

/-- A large piece is long, for the length of its second interval. -/
theorem length_of_isLarge (hp : 2 ≤ p) (hq : q.i.Fits) (hle : q.i.lo.toReal ≤ q.i.hi.toReal) (h : q.isLarge = true) :
    28 / q.j.width.toReal ≤ q.i.hi.toReal - q.i.lo.toReal := by
  have hj := width_pos_of_isLarge hp hle h
  rw [isLarge_iff] at h
  have hulp := ulp_le_half hp
  have hulp' : ulp coarseBits ≤ 1 / 100 := by rw [BinaryLog.ulp_coarse]; norm_num
  have hwidth := (abs_le.1 (Interval.rounds_width (by omega) hq).error).2
  rw [abs_of_nonneg (sub_nonneg.2 hle)] at hwidth
  have hnonneg : 0 ≤ q.i.hi.toReal - q.i.lo.toReal := sub_nonneg.2 hle
  have hi0 := (q.i.width_nonneg_iff hp).2 hle
  have hprod0 : 0 ≤ q.i.width.toReal * q.j.width.toReal := mul_nonneg hi0 hj.le
  have hprod := (abs_le.1 (rounds_mul q.i.width q.j.width).error).2
  rw [abs_of_nonneg hprod0] at hprod
  have hfloat0 : 0 ≤ (q.i.width * q.j.width).toReal := by
    by_contra hneg
    linarith [coarsen_nonpos (not_le.1 hneg).le]
  have hcoarse := coarsen_le hfloat0
  have hsmall : ulp coarseBits * (q.i.width * q.j.width).toReal ≤ 1 / 100 * (q.i.width * q.j.width).toReal :=
    mul_le_mul_of_nonneg_right hulp' hfloat0
  have hhalf : ulp p / 2 * (q.i.width.toReal * q.j.width.toReal) ≤ 1 / 4 * (q.i.width.toReal * q.j.width.toReal) :=
    mul_le_mul_of_nonneg_right (by linarith) hprod0
  have hhalf' : ulp p / 2 * (q.i.hi.toReal - q.i.lo.toReal) ≤ 1 / 4 * (q.i.hi.toReal - q.i.lo.toReal) :=
    mul_le_mul_of_nonneg_right (by linarith) hnonneg
  have harea := mul_le_mul_of_nonneg_right (by linarith : q.i.width.toReal ≤ 5 / 4 * (q.i.hi.toReal - q.i.lo.toReal))
    hj.le
  rw [div_le_iff₀ hj]
  linarith

end Piece

/-- The piece between two numbers. -/
def between (x y : Approx p) (j : Interval (Approx p)) : Piece (Approx p) := ⟨⟨x, y⟩, j, false⟩

/-- Where splitting comes to an end there is no large piece between neighbours. -/
theorem Settles.not_isLarge (hp : 2 ≤ p) (h : Settles q) (hq : q.i.Fits) {x y : Approx p} (hxy : Neighbours x y)
    (hlo : q.i.lo.toReal ≤ x.toReal) (hhi : y.toReal ≤ q.i.hi.toReal) : (between x y q.j).isLarge = false := by
  have hlt := hxy.lt
  have hfits : (between x y q.j).i.Fits := ⟨hxy.left, hxy.right⟩
  induction h with
  | @empty q hempty =>
    rw [← Bool.not_eq_true]
    intro hlarge
    rcases (Piece.isEmpty_iff hp q).1 hempty with hi | hj
    · linarith
    · have hwidth := Piece.width_pos_of_isLarge hp (q := between x y q.j) hlt.le hlarge
      exact absurd ((Interval.width_pos_iff hp _).1 hwidth) hj.not_gt
  | @small q _ hsmall =>
    rw [← Bool.not_eq_true] at hsmall ⊢
    exact fun hlarge => hsmall (Piece.isLarge_mono hp hfits hq rfl hlt.le hlo hhi hlarge)
  | @halve q _ _ _ _ ihl ihu =>
    -- no midpoint separates neighbours
    rcases hxy.gap _ (Interval.midpoint_fits (by omega) hq) with hmid | hmid
    · exact ihu (hq.upperHalf (by omega)) hmid hhi hfits
    · exact ihl (hq.lowerHalf (by omega)) hlo hmid hfits

/-- Unless its ends are neighbours, the midpoint of an interval lies strictly between them. -/
theorem midpoint_strict (hp : 1 ≤ p) {i : Interval (Approx p)} (hi : i.Fits) (hlt : i.lo.toReal < i.hi.toReal)
    (hapart : ¬Neighbours i.lo i.hi) : i.lo.toReal < i.midpoint.toReal ∧ i.midpoint.toReal < i.hi.toReal := by
  obtain ⟨z, hz, hzlo, hzhi⟩ : ∃ z : Approx p, z.Fits ∧ i.lo.toReal < z.toReal ∧ z.toReal < i.hi.toReal := by
    by_contra hall
    push Not at hall
    exact hapart ⟨hi.lo, hi.hi, hlt, fun z hz => (le_or_gt z.toReal i.lo.toReal).imp id (hall z hz)⟩
  exact Interval.midpoint_between hp hi hz hzlo hzhi

/-- The rounded middle of a long interval is away from the lower end, if their distance is not small against either of them:
otherwise both would be small, and with them the upper end. -/
theorem le_of_gaps {a b m w c : ℝ} (hlong : w ≤ b - a) (herror : |m - (a + b) / 2| ≤ 1 / 4 * |(a + b) / 2|)
    (ha : |a| ≤ c * (m - a)) (hm : |m| ≤ c * (m - a)) : w ≤ 8 * c * (m - a) := by
  by_contra hsmall
  rw [not_le] at hsmall
  have hmiddle := abs_sub_abs_le_abs_sub ((a + b) / 2) m
  rw [abs_sub_comm] at hmiddle
  have hm' : |m| < w / 8 := by linarith
  have ha' := (abs_lt.1 (by linarith : |a| < w / 8)).1
  have hc := (le_abs_self ((a + b) / 2)).trans (by linarith : _ ≤ w / 6)
  linarith [abs_nonneg m]

/-- A midpoint strictly between the ends of a long interval is not too near to an end. -/
theorem midpoint_away (hp : 2 ≤ p) {i : Interval (Approx p)} (hi : i.Fits) {w : ℝ}
    (hlong : w ≤ i.hi.toReal - i.lo.toReal) (hlo : i.lo.toReal < i.midpoint.toReal)
    (hhi : i.midpoint.toReal < i.hi.toReal) :
    w ≤ 8 * 2 ^ p * (i.midpoint.toReal - i.lo.toReal) ∧ w ≤ 8 * 2 ^ p * (i.hi.toReal - i.midpoint.toReal) := by
  have hround := Interval.rounds_midpoint (by omega) hi
  have hmid := hround.representable
  have hulp := ulp_le_half hp
  have herror := hround.error.trans (mul_le_mul_of_nonneg_right (by linarith : ulp p / 2 ≤ 1 / 4) (abs_nonneg _))
  have hgap {r s : ℝ} (hr : Representable p r) (hs : Representable p s) (hlt : r < s) :
      |r| ≤ 2 ^ p * (s - r) ∧ |s| ≤ 2 ^ p * (s - r) := by
    have hrs := hr.abs_le_abs_sub_mul (by omega) hs hlt.ne
    have hsr := hs.abs_le_abs_sub_mul (by omega) hr hlt.ne'
    rw [mul_comm, abs_of_neg (sub_neg.2 hlt), neg_sub] at hrs
    rw [mul_comm, abs_of_pos (sub_pos.2 hlt)] at hsr
    exact ⟨hrs, hsr⟩
  obtain ⟨hlow, hlowmid⟩ := hgap hi.lo hmid hlo
  obtain ⟨hhighmid, hhigh⟩ := hgap hmid hi.hi hhi
  refine ⟨le_of_gaps hlong herror hlow hlowmid, ?_⟩
  -- the upper end is the lower end of the mirrored interval
  generalize i.midpoint.toReal = m at *
  generalize i.lo.toReal = a at *
  generalize i.hi.toReal = b at *
  have hmirror := le_of_gaps (a := -b) (b := -a) (m := -m) (w := w) (c := 2 ^ p) (by linarith)
    (by rwa [show -m - (-b + -a) / 2 = -(m - (a + b) / 2) by ring, show (-b + -a) / 2 = -((a + b) / 2) by ring, abs_neg,
      abs_neg]) (by rwa [abs_neg, neg_sub_neg]) (by rwa [abs_neg, neg_sub_neg])
  rwa [neg_sub_neg] at hmirror

/-- Without a large piece between neighbours splitting comes to an end. -/
theorem settles_of_not_isLarge (hp : 2 ≤ p) {i j : Interval (Approx p)} (hi : i.Fits)
    (hnone : ∀ x y : Approx p, Neighbours x y → i.lo.toReal ≤ x.toReal → y.toReal ≤ i.hi.toReal →
      (between x y j).isLarge = false) (openBelow : Bool) : Settles (⟨i, j, openBelow⟩ : Piece (Approx p)) := by
  -- Every half of a large piece is shorter by a fixed part of the least length of a large piece.
  set w : ℝ := 28 / j.width.toReal with hw
  have hpow : (0 : ℝ) < 8 * 2 ^ p := by positivity
  have hlength {i : Interval (Approx p)} (hi : i.Fits) {openBelow : Bool}
      (hempty : ¬Piece.isEmpty (⟨i, j, openBelow⟩ : Piece (Approx p)) = true)
      (hlarge : Piece.isLarge (⟨i, j, openBelow⟩ : Piece (Approx p)) = true) :
      i.lo.toReal ≤ i.hi.toReal ∧ 0 < w ∧ w ≤ i.hi.toReal - i.lo.toReal := by
    rw [Piece.isEmpty_iff hp, not_or, not_lt, not_lt] at hempty
    have hwidth := Piece.width_pos_of_isLarge (q := ⟨i, j, openBelow⟩) hp hempty.1 hlarge
    exact ⟨hempty.1, div_pos (by norm_num) hwidth, Piece.length_of_isLarge (q := ⟨i, j, openBelow⟩) hp hi hempty.1 hlarge⟩
  obtain ⟨n, hn⟩ := exists_nat_ge ((i.hi.toReal - i.lo.toReal) * (8 * 2 ^ p) / w)
  have hbound : 0 < w → (i.hi.toReal - i.lo.toReal) * (8 * 2 ^ p) ≤ n * w := fun hpos => (div_le_iff₀ hpos).1 hn
  clear hn
  induction n generalizing i openBelow with
  | zero =>
    by_cases hempty : Piece.isEmpty (⟨i, j, openBelow⟩ : Piece (Approx p)) = true
    · exact .empty hempty
    · refine .small (Bool.eq_false_iff.2 hempty) (Bool.eq_false_iff.2 fun hlarge => ?_)
      obtain ⟨hle, hpos, hlong⟩ := hlength hi hempty hlarge
      have hshort := hbound hpos
      rw [Nat.cast_zero, zero_mul] at hshort
      exact absurd (mul_pos (hpos.trans_le hlong) hpow) hshort.not_gt
  | succ n ih =>
    by_cases hempty : Piece.isEmpty (⟨i, j, openBelow⟩ : Piece (Approx p)) = true
    · exact .empty hempty
    by_cases hlarge : Piece.isLarge (⟨i, j, openBelow⟩ : Piece (Approx p)) = true
    · obtain ⟨hle, hpos, hlong⟩ := hlength hi hempty hlarge
      have hlt : i.lo.toReal < i.hi.toReal := by linarith
      obtain ⟨hmlo, hmhi⟩ := midpoint_strict (by omega) hi hlt fun hneighbours =>
        Bool.eq_false_iff.1 (hnone _ _ hneighbours le_rfl le_rfl) hlarge
      obtain ⟨haway, haway'⟩ := midpoint_away hp hi hlong hmlo hmhi
      have hn := hbound hpos
      push_cast at hn
      refine .halve (Bool.eq_false_iff.2 hempty) hlarge ?_ ?_
      · refine ih (hi.lowerHalf (by omega)) (fun x y hxy hx hy => hnone x y hxy hx (hy.trans hmhi.le)) openBelow
          fun _ => ?_
        change (i.midpoint.toReal - i.lo.toReal) * (8 * 2 ^ p) ≤ n * w
        linarith
      · refine ih (hi.upperHalf (by omega)) (fun x y hxy hx hy => hnone x y hxy (hmlo.le.trans hx) hy) true
          fun _ => ?_
        change (i.hi.toReal - i.midpoint.toReal) * (8 * 2 ^ p) ≤ n * w
        linarith
    · exact .small (Bool.eq_false_iff.2 hempty) (Bool.eq_false_iff.2 hlarge)

/-- The enumeration ends exactly if no two neighbouring numbers of the first interval bound a large piece. -/
theorem exists_yields_iff_neighbours (hp : 2 ≤ p) {i j : Interval (Approx p)} (hi : i.Fits) (lift : Lift) :
    (∃ out, Yields step (withLift i j lift) out) ↔ ∀ x y : Approx p, Neighbours x y → i.lo.toReal ≤ x.toReal →
      y.toReal ≤ i.hi.toReal → (between x y j).isLarge = false := by
  rw [exists_yields_iff]
  constructor
  · exact fun h x y hxy hlo hhi => h.not_isLarge hp hi hxy hlo hhi
  · exact fun h => settles_of_not_isLarge hp hi h false

/-- At the lowest precision the numbers `2⁸⁶` and `2⁸⁶ + 2` are neighbours, and an interval between them is split for ever
if the conjugates are asked for in an interval of length forty. -/
theorem not_exists_yields_two_pow : (Precision.ofDigits 16).bits = 86 ∧
    (¬∃ out, Yields step (plain ⟨ofInt (2 ^ 86), ofInt (2 ^ 86 + 2)⟩ ⟨ofInt 0, ofInt 40⟩ : State (Approx 86)) out) ∧
    ∃ out, Yields step (plain ⟨ofInt 0, ofInt 1⟩ ⟨ofInt 0, ofInt 1⟩ : State (Approx 86)) out := by
  refine ⟨by decide +kernel, ?_, ?_⟩
  · have hx : (ofInt (2 ^ 86) : Approx 86).toReal = 2 ^ 86 :=
      (toReal_ofInt (n := 2 ^ 86) (by norm_num) ⟨1, 86, by norm_num, by norm_num⟩).trans (by norm_num)
    have hy : (ofInt (2 ^ 86 + 2) : Approx 86).toReal = 2 ^ 86 + 2 :=
      (toReal_ofInt (n := 2 ^ 86 + 2) (by norm_num) ⟨2 ^ 85 + 1, 1, by norm_num, by norm_num⟩).trans (by norm_num)
    have hneighbours : Neighbours (ofInt (2 ^ 86) : Approx 86) (ofInt (2 ^ 86 + 2)) :=
      neighbours_of_sub_le (by norm_num) (fits_ofInt _) (fits_ofInt _) (hx.symm ▸ by norm_num)
        (hx.symm ▸ hy.symm ▸ by norm_num) (hx.symm ▸ hy.symm ▸ by norm_num)
    intro hends
    have hsmall := (exists_yields_iff_neighbours (by norm_num) (Interval.fits_ofInt _ _) .plain).1 hends
    exact absurd (hsmall _ _ hneighbours le_rfl le_rfl) (by decide +kernel)
  · have hzero := toReal_ofInt (p := 86) (n := 0) (by norm_num) (by rw [Int.cast_zero]; exact Representable.zero)
    have hone := toReal_ofInt (p := 86) (n := 1) (by norm_num) (by rw [Int.cast_one]; exact Representable.one)
    push_cast at hzero hone
    refine (exists_yields_iff_neighbours (by norm_num) (Interval.fits_ofInt 0 1) .plain).2 fun x y hxy hx hy =>
      Bool.eq_false_iff.2 fun hlarge => ?_
    rw [hzero] at hx
    rw [hone] at hy
    have hlt := hxy.lt
    have hgap := hxy.sub_le (by norm_num) (m := 1) (abs_le.2 ⟨by linarith, by linarith⟩) (abs_le.2 ⟨by linarith, by linarith⟩)
    have hwidth : (Interval.width ⟨ofInt 0, ofInt 1⟩ : Approx 86).toReal = 1 := by
      have := (Interval.rounds_width (by norm_num) (Interval.fits_ofInt (p := 86) 0 1))
      dsimp only at this
      rw [hzero, hone, sub_zero] at this
      exact this.eq_of_representable (by norm_num) Representable.one
    have hlong := Piece.length_of_isLarge (q := between x y ⟨ofInt 0, ofInt 1⟩) (by norm_num) ⟨hxy.left, hxy.right⟩ hlt.le
      hlarge
    have hulp := ulp_le_half (p := 86) (by norm_num)
    dsimp only [between] at hlong
    rw [hwidth] at hlong
    linarith

end Line

end CliffordT

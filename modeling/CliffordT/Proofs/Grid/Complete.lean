import CliffordT.Proofs.Grid.Points
import CliffordT.Proofs.Plane.Action
import CliffordT.Proofs.Plane.Region

/-!
The two-dimensional enumeration loses nothing of its own.

A point with denominator exponent `k` has a preimage with the same exponent, whose coordinates are fractions over
`√2 ^ (k + 1)` with integer parts of the same parity. If the boxes contain the first coordinates and the slices the second
ones, and the enumerations in one dimension miss none of their numbers, then the point is yielded.
-/

namespace CliffordT

/-! ### Conjugates of coordinates -/

theorem QuadFrac.toReal_bullet (r : QuadInt) (m : ℕ) :
    toReal (RootFrac.bullet ⟨r, m⟩) = QuadInt.realHom r.bullet / (-√2) ^ m := by
  apply toReal_eq_of_value
  rw [RootFrac.value_bullet, sqrtTwo_eq_ofReal]
  push_cast
  rfl

namespace PlaneOp

open CycloFrac

theorem value_apply_over (g : PlaneOp ℕ) (n : CycloInt) (k : ℕ) :
    (g.apply ⟨n, k⟩).value = (g.apply (RootFrac.ofRing n)).value / sqrtTwo ^ k := by
  have hpart (r : QuadInt) : (⟨r, k + 1⟩ : QuadFrac ℕ).value = (⟨r, 0 + 1⟩ : QuadFrac ℕ).value / sqrtTwo ^ k := by
    rw [RootFrac.value_mk, RootFrac.value_mk, Exponent.load_nat, Exponent.load_nat, div_div, ← pow_add, add_comm k,
      zero_add]
  have hre : (re ⟨n, k⟩).value = (re (RootFrac.ofRing n)).value / sqrtTwo ^ k := hpart _
  have him : (im ⟨n, k⟩).value = (im (RootFrac.ofRing n)).value / sqrtTwo ^ k := hpart _
  rw [value_apply, value_apply, hre, him]
  ring

end PlaneOp

namespace Line

variable {p : ℕ}

/-- The numbers that an enumeration scaled by `√2 ^ m` is asked for. -/
def solutions (i j : Interval (Approx p)) (m : ℕ) : Set QuadInt :=
  {alpha | QuadFrac.toReal ⟨alpha, m⟩ ∈ i.toSet ∧ QuadFrac.toReal (RootFrac.bullet ⟨alpha, m⟩) ∈ j.toSet}

/-- Intervals around zero have finitely many numbers. -/
theorem sq_add_le_of_mem_solutions {i j : Interval (Approx p)} {c : ℝ} (hi : i.toSet ⊆ Set.Icc (-c) c)
    (hj : j.toSet ⊆ Set.Icc (-c) c) {m : ℕ} {alpha : QuadInt} (h : alpha ∈ solutions i j m) :
    (alpha.a : ℝ) ^ 2 + 2 * (alpha.b : ℝ) ^ 2 ≤ 2 ^ m * c ^ 2 := by
  have hroot : √2 ^ 2 = 2 := Real.sq_sqrt (by norm_num)
  have hbound {x r : ℝ} (hr : r ^ 2 = 2) (hx : x / r ^ m ∈ Set.Icc (-c) c) : x ^ 2 ≤ 2 ^ m * c ^ 2 := by
    have hsq := sq_le_sq' hx.1 hx.2
    rwa [div_pow, ← pow_mul, mul_comm m, pow_mul, hr, div_le_iff₀' (by positivity)] at hsq
  obtain ⟨h₁, h₂⟩ := h
  rw [QuadFrac.toReal_eq] at h₁
  rw [QuadFrac.toReal_bullet] at h₂
  have hfirst := hbound hroot (hi h₁)
  have hsecond := hbound (by rw [neg_sq, hroot]) (hj h₂)
  rw [QuadInt.realHom_apply] at hfirst hsecond
  simp only [QuadInt.bullet_a, QuadInt.bullet_b, Int.cast_neg] at hsecond
  -- the squares of a number and of its conjugate have this mean
  linear_combination (hfirst + hsecond) / 2 - (alpha.b : ℝ) ^ 2 * hroot

end Line

namespace Points

open CycloFrac Exponent Progress

variable {p : ℕ} {E : Type} [Exponent E] {first second : Region (Approx p) E} {pair : UprightPair (Approx p) E} {k : E}

/-- Padding does not leave out anything. -/
theorem toSet_subset_padded (hp : 2 ≤ p) {i : Interval (Approx p)} (hi : i.Fits) : i.toSet ⊆ (padded i).toSet := by
  obtain ⟨amount, hpadded, hfits, hamount⟩ : ∃ amount : Approx p, padded i = i.fatten amount ∧ amount.Fits ∧
      0 ≤ amount.toReal := by
    have hwidth : i.width.Fits := (Interval.rounds_width (by omega) hi).representable
    have hmagnitude : (Scalar.magnitude i.width).Fits ∧ 0 ≤ (Scalar.magnitude i.width).toReal := by
      rw [Scalar.magnitude]
      split
      · next hneg =>
        rw [Approx.toReal_neg]
        exact ⟨hwidth.neg, by linarith [(Approx.isNegative_iff _).1 hneg]⟩
      · next hneg => exact ⟨hwidth, not_lt.1 (mt (Approx.isNegative_iff _).2 hneg)⟩
    have hshift : (Approx.shift (Scalar.magnitude i.width) (-10)).Fits := hmagnitude.1.shift _
    have hshift0 : 0 ≤ (Approx.shift (Scalar.magnitude i.width) (-10)).toReal := by
      rw [Approx.toReal_shift]
      exact mul_nonneg hmagnitude.2 (by positivity)
    have htolerance : (Approx.tolerance : Approx p).Fits ∧ 0 ≤ (Approx.tolerance : Approx p).toReal := by
      rw [Approx.tolerance, Approx.Fits, Approx.toReal_powTwo]
      exact ⟨Representable.two_zpow _, by positivity⟩
    have hsum := Approx.rounds_add (by omega) hshift htolerance.1
    exact ⟨_, rfl, hsum.representable, hsum.nonneg (by omega) (add_nonneg hshift0 htolerance.2)⟩
  have hlo := (Approx.rounds_sub (by omega) hi.lo hfits).mono (by omega) (Approx.rounds_of_fits (by omega) hi.lo)
    (by linarith)
  have hhi := (Approx.rounds_of_fits (by omega) hi.hi).mono (by omega) (Approx.rounds_add (by omega) hi.hi hfits)
    (by linarith)
  rw [hpadded]
  exact Set.Icc_subset_Icc hlo hhi

/-- The padded slice of a region along a line contains the parameters of the points of the line that lie in the region and have
a given denominator exponent. -/
def SliceCovers (r : Region (Approx p) E) (k : ℕ) (origin direction : CycloFrac E) : Prop :=
  ∀ (t : ℝ) (u : CycloFrac E), u.reduce = u → load u.exp = k → r.inside u = true → u.value = origin.value + t * direction.value →
    ∃ i, r.slice? origin direction = some i ∧ t ∈ (padded i).toSet

/-- What the enumeration relies on: the boxes contain the first coordinates of all solutions, the slices along its lines lose
nothing, and the enumerations in one dimension miss none of their numbers. A column is opened when the one before it has
been run through, and by then none of its numbers has been missed. -/
structure Covers (first second : Region (Approx p) E) (pair : UprightPair (Approx p) E) (k : E) : Prop where
  /-- The ends of the first box are numbers of the precision. -/
  firstFits : pair.first.x.Fits
  /-- The ends of the second box are numbers of the precision. -/
  secondFits : pair.second.x.Fits
  /-- The first box contains the first coordinates of the preimages. -/
  firstBox : ∀ u, Solves first second (load k) u → ∀ inv, pair.op.inverse = .ok inv →
    (inv.apply u).value.re ∈ pair.first.x.toSet
  /-- The second box contains the first coordinates of the preimages of the conjugates. -/
  secondBox : ∀ u, Solves first second (load k) u → ∀ inv, pair.op.bullet.inverse = .ok inv →
    (inv.apply u.bullet).value.re ∈ pair.second.x.toSet
  /-- Slices of the first region. -/
  firstSlice : ∀ alpha, Reaches Line.step (start pair k).xs alpha →
    SliceCovers first (load k) ((problem first second pair.op k).origin alpha) (problem first second pair.op k).yAxis
  /-- Slices of the second region. -/
  secondSlice : ∀ alpha, Reaches Line.step (start pair k).xs alpha →
    SliceCovers second (load k) ((problem first second pair.op k).origin alpha).bullet
      (problem first second pair.op k).yAxis.bullet
  /-- The first coordinates. -/
  xs : ∀ alpha ∈ Line.solutions (padded pair.first.x) (padded pair.second.x) (load (next k)),
    Reaches Line.step (start pair k).xs alpha
  /-- The second coordinates in a column. -/
  ys : ∀ alpha, Reaches Line.step (start pair k).xs alpha → ∀ i j,
    first.slice? ((problem first second pair.op k).origin alpha) (problem first second pair.op k).yAxis = some i →
    second.slice? ((problem first second pair.op k).origin alpha).bullet (problem first second pair.op k).yAxis.bullet =
      some j →
    Exhausts (Line.scaledWithParity (padded i) (padded j) (load (next k)) (alpha.a % 2))
      {beta ∈ Line.solutions (padded i) (padded j) (load (next k)) | beta.a % 2 = alpha.a % 2}

/-- A point is the image of a point with the same denominator. -/
theorem exists_coordinates {g inv : PlaneOp ℕ} (hg : g.IsGridOp) (hinv : g.inverse = .ok inv) {u : CycloFrac ℕ}
    (hu : u.reduce = u) : ∃ w : CycloInt, (g.apply ⟨w, u.exp⟩).value = u.value ∧
      (inv.apply u).value = (⟨w, u.exp⟩ : CycloFrac ℕ).value := by
  obtain ⟨inv', hok, hgrid, _, hright⟩ := hg.inverse
  obtain rfl : inv' = inv := Except.ok.inj (hok.symm.trans hinv)
  obtain ⟨w, hw⟩ := hgrid.maps ⟨u.num, rfl⟩
  have hvalue : (inv'.apply u).value = (⟨w, u.exp⟩ : CycloFrac ℕ).value := by
    have := PlaneOp.value_apply_over inv' u.num u.exp
    rw [← hw, RootFrac.value_ofRing] at this
    exact this
  refine ⟨w, ?_, hvalue⟩
  rw [← PlaneOp.apply_congr (g := g) rfl hvalue, hright, hu]

/-- A point has coordinates with integer parts of the same parity, and its preimage and that of its conjugate have the same
first coordinate, up to conjugation. -/
theorem exists_point {g : PlaneOp ℕ} (hg : g.IsGridOp) {u : CycloFrac ℕ} (hu : u.reduce = u) :
    ∃ alpha beta : QuadInt, beta.a % 2 = alpha.a % 2 ∧
      (ofReal ⟨alpha, u.exp + 1⟩ * g.apply 1 + ofReal ⟨beta, u.exp + 1⟩ * g.apply imaginaryUnit).value = u.value ∧
      (∀ inv, g.inverse = .ok inv → (inv.apply u).value.re = QuadFrac.toReal ⟨alpha, u.exp + 1⟩) ∧
      ∀ inv, g.bullet.inverse = .ok inv → (inv.apply u.bullet).value.re = QuadFrac.toReal (RootFrac.bullet ⟨alpha, u.exp + 1⟩) := by
  obtain ⟨inv, hinv, -⟩ := hg.inverse
  obtain ⟨invb, hinvb, -, hleftb, -⟩ := hg.bullet.inverse
  obtain ⟨w, hw, hpre⟩ := exists_coordinates hg hinv hu
  have hre : re ⟨w, u.exp⟩ = (⟨⟨w.x₁ - w.x₃, w.x₀⟩, u.exp + 1⟩ : QuadFrac ℕ) := rfl
  have him : im ⟨w, u.exp⟩ = (⟨⟨w.x₁ + w.x₃, w.x₂⟩, u.exp + 1⟩ : QuadFrac ℕ) := rfl
  refine ⟨⟨w.x₁ - w.x₃, w.x₀⟩, ⟨w.x₁ + w.x₃, w.x₂⟩, by dsimp only; omega, ?_, fun inv' hinv' => ?_, fun inv' hinv' => ?_⟩
  · refine (value_point g ⟨_, u.exp + 1⟩ ⟨_, u.exp + 1⟩).trans (Eq.trans ?_ hw)
    refine congrArg RootFrac.value (PlaneOp.apply_congr rfl ?_)
    rw [value_ofParts, value_eq_parts, hre, him]
  · obtain rfl : inv = inv' := Except.ok.inj (hinv.symm.trans hinv')
    rw [hpre, value_re, hre]
  · obtain rfl : invb = inv' := Except.ok.inj (hinvb.symm.trans hinv')
    have hbullet : invb.apply u.bullet = (RootFrac.bullet ⟨w, u.exp⟩ : CycloFrac ℕ).reduce := by
      rw [← hleftb]
      refine PlaneOp.apply_congr rfl ?_
      rw [← PlaneOp.bullet_apply, RootFrac.value_bullet_congr hw]
    rw [hbullet, RootFrac.value_reduce, value_re, re_bullet, hre]

/-- A point and its conjugate lie on the lines of their column. -/
theorem value_on_lines (hg : Storable pair.op (load k)) {alpha beta : QuadInt} {u : CycloFrac E}
    (h : ((problem first second pair.op k).origin alpha + ofReal ⟨beta, next k⟩ *
      (problem first second pair.op k).yAxis).value = u.value) :
    u.value = ((problem first second pair.op k).origin alpha).value +
        (QuadFrac.toReal ⟨beta, load (next k)⟩ : ℂ) * (problem first second pair.op k).yAxis.value ∧
      u.bullet.value = ((problem first second pair.op k).origin alpha).bullet.value +
        (QuadFrac.toReal (RootFrac.bullet ⟨beta, load (next k)⟩) : ℂ) *
          (problem first second pair.op k).yAxis.bullet.value := by
  have hstores : Stores E (load (ofReal ⟨beta, next k⟩ : CycloFrac E).exp + load (problem first second pair.op k).yAxis.exp) :=
    hg.stores_axis CycloInt.imaginaryUnit beta
  have : Stores E (load (ofReal ⟨beta, next k⟩ : CycloFrac E).bullet.exp +
    load (problem first second pair.op k).yAxis.bullet.exp) := hstores
  constructor
  · rw [← h, RootFrac.value_add, RootFrac.value_mul, value_ofReal, QuadFrac.value_eq_toReal]
    rfl
  · rw [← RootFrac.value_bullet_congr h, RootFrac.bullet_add, RootFrac.bullet_mul, RootFrac.value_add, RootFrac.value_mul,
      ofReal_bullet, value_ofReal, QuadFrac.value_eq_toReal]
    rfl

/-- A solution has coordinates, and its preimage and that of its conjugate have the first one of them. -/
theorem Solves.exists_point (hg : Storable pair.op (load k)) {u : CycloFrac E} (hu : Solves first second (load k) u) :
    ∃ alpha beta : QuadInt, beta.a % 2 = alpha.a % 2 ∧
      ((problem first second pair.op k).origin alpha + ofReal ⟨beta, next k⟩ *
        (problem first second pair.op k).yAxis).value = u.value ∧
      (∃ inv, pair.op.inverse = .ok inv ∧ (inv.apply u).value.re = QuadFrac.toReal ⟨alpha, load (next k)⟩) ∧
      ∃ inv, pair.op.bullet.inverse = .ok inv ∧
        (inv.apply u.bullet).value.re = QuadFrac.toReal (RootFrac.bullet ⟨alpha, load (next k)⟩) := by
  have := hg.stores_succ
  obtain ⟨alpha, beta, hparity, hpoint, hfirst, hsecond⟩ := Points.exists_point hg.isGridOp_unbounded (u := u.unbounded)
    (by rw [← RootFrac.unbounded_reduce, hu.reduced])
  rw [RootFrac.unbounded_exp, hu.exp] at hpoint hfirst hsecond
  obtain ⟨inv, hinv⟩ := hg.isGridOp.exists_inverse
  obtain ⟨invb, hinvb⟩ := PlaneOp.exists_inverse_bullet hinv
  have hinvE : Stores E (inv.depth + (load u.exp + 1)) := by
    rw [PlaneOp.depth_inverse hinv, hu.exp]
    exact hg.images
  have hinvbE : Stores E (invb.depth + (load u.bullet.exp + 1)) := by
    rw [PlaneOp.depth_inverse hinvb, show load u.bullet.exp = load k from hu.exp]
    exact hg.images
  refine ⟨alpha, beta, hparity, ?_, ⟨inv, hinv, ?_⟩, invb, hinvb, ?_⟩
  · exact (congrArg RootFrac.value (unbounded_point hg alpha beta)).trans hpoint
  · rw [load_next, ← hfirst _ (PlaneOp.inverse_unbounded hg.products hinv), ← PlaneOp.unbounded_apply hinvE,
      RootFrac.value_unbounded]
  · rw [load_next, ← hsecond _ (PlaneOp.inverse_unbounded (g := pair.op.bullet) hg.products hinvb), ← RootFrac.unbounded_bullet,
      ← PlaneOp.unbounded_apply hinvbE, RootFrac.value_unbounded]

/-- Every solution is yielded. -/
theorem Covers.reaches (hp : 2 ≤ p) (hop : Storable pair.op (load k)) (h : Covers first second pair k)
    {u : CycloFrac E} (hu : Solves first second (load k) u) : Reaches (step (problem first second pair.op k)) (start pair k) u := by
  obtain ⟨alpha, beta, hparity, hpoint, ⟨inv, hinv, hx⟩, inv', hinv', hx'⟩ := hu.exists_point hop
  obtain ⟨hfirst, hsecond⟩ := value_on_lines hop hpoint
  -- the first coordinate is yielded
  have halphas : Reaches Line.step (start pair k).xs alpha :=
    h.xs alpha ⟨toSet_subset_padded hp h.firstFits (hx ▸ h.firstBox u hu inv hinv),
      toSet_subset_padded hp h.secondFits (hx' ▸ h.secondBox u hu inv' hinv')⟩
  -- and the second one in its column
  obtain ⟨i, hi, hbetai⟩ := h.firstSlice alpha halphas _ u hu.reduced hu.exp hu.first hfirst
  obtain ⟨j, hj, hbetaj⟩ := h.secondSlice alpha halphas _ u.bullet (RootFrac.reduce_bullet hu.reduced) hu.exp hu.second hsecond
  obtain ⟨alphas, xs', hrun, hmem⟩ := halphas
  obtain ⟨out, hout, hall⟩ := run_columns (problem first second pair.op k) hrun
    (fun a => {b | ∃ i j,
      first.slice? ((problem first second pair.op k).origin a) (problem first second pair.op k).yAxis = some i ∧
      second.slice? ((problem first second pair.op k).origin a).bullet (problem first second pair.op k).yAxis.bullet =
        some j ∧ b ∈ Line.solutions (padded i) (padded j) (load (next k)) ∧ b.a % 2 = a.a % 2})
    (fun a ha c hc => by
      obtain ⟨i, j, hi, hj, rfl⟩ := (column?_eq_some_iff a c).1 hc
      obtain ⟨betas, hyields, hsub⟩ := h.ys a ⟨alphas, xs', hrun, ha⟩ i j hi hj
      refine ⟨betas, hyields, ?_⟩
      rintro b ⟨i', j', hi', hj', hb⟩
      obtain rfl := Option.some.inj (hi.symm.trans hi')
      obtain rfl := Option.some.inj (hj.symm.trans hj')
      exact hsub hb)
  exact ⟨out, _, hout, hall alpha hmem _ ((column?_eq_some_iff alpha _).2 ⟨i, j, hi, hj, rfl⟩) beta
    ⟨i, j, hi, hj, ⟨hbetai, hbetaj⟩, hparity⟩ u
    ((accept?_eq_some_iff _ _ _).2 ⟨(RootFrac.reduce_congr hpoint).trans hu.reduced, hu⟩)⟩

/-- Every point that is yielded has the denominator exponent and lies, with its conjugate, in the regions. As long as the
coordinates and their images can be stored, no point is yielded twice, and if the boxes, the slices and the enumerations in one
dimension lose nothing, every such point is yielded. Where the exponent of the coordinates wraps, nothing is yielded at all. -/
theorem enumeration_sound_complete (hp : 2 ≤ p) (first second : Region (Approx p) E) (pair : UprightPair (Approx p) E) (k : E) :
    (∀ out t, Run (step (enumeration first second (some pair) (load k)).1) (enumeration first second (some pair) (load k)).2 out t →
      (∀ u ∈ out, Solves first second (load k) u) ∧ (Storable pair.op (load k) → out.Nodup) ∧
        (load (next k) + (pair.op.depth + 1) < load k → out = [])) ∧
    (Storable pair.op (load k) → Covers first second pair k → ∀ u, Solves first second (load k) u →
      Reaches (step (enumeration first second (some pair) (load k)).1) (enumeration first second (some pair) (load k)).2 u) := by
  have hstart : enumeration first second (some pair) (load k) = (problem first second pair.op k, start pair k) := by
    rw [enumeration, store_load]
  rw [hstart]
  refine ⟨fun out t h => ⟨fun u hu => (solves_of_run_start h hu).1, fun hop => nodup_of_run_start hp hop h, fun hwrap => ?_⟩,
    fun hop h _ hu => h.reaches hp hop hu⟩
  exact List.eq_nil_iff_forall_not_mem.2 fun u hu => hwrap.not_ge (solves_of_run_start h hu).2

/-! ### The unit disk in its box -/

/-- The interval from `-1` to `1`. -/
def unitInterval : Interval (Approx p) := ⟨-1, 1⟩

/-- The unit disk, with slices of full width. -/
def boxedDisk : Region (Approx p) UInt32 := { Disk.region with slice? := fun _ _ => some unitInterval }

/-- The disk and its conjugate, which are upright as they are. -/
def squarePair (p : ℕ) : UprightPair (Approx p) UInt32 :=
  ⟨PlaneOp.identity, ⟨unitInterval, unitInterval⟩, ⟨unitInterval, unitInterval⟩, 0⟩

theorem fits_unitInterval : (unitInterval : Interval (Approx p)).Fits := by
  have hone : (1 : Approx p).Fits := by
    rw [Approx.Fits, Approx.toReal_one]
    exact Representable.one
  exact ⟨hone.neg, hone⟩

theorem boxedDisk_parts {u : CycloFrac UInt32} (hexp : load u.exp = 0)
    (hu : (boxedDisk : Region (Approx p) UInt32).inside u = true) :
    u.value.re ∈ (unitInterval : Interval (Approx p)).toSet ∧ u.value.im ∈ (unitInterval : Interval (Approx p)).toSet := by
  have : Stores UInt32 (2 * load u.exp) := .of_lt (by omega)
  rw [unitInterval, Interval.toSet, Approx.toReal_neg, Approx.toReal_one]
  exact Disk.parts_mem_of_inside hu

theorem boxedDisk_box {u : CycloFrac UInt32} (hexp : load u.exp = 0)
    (hu : (boxedDisk : Region (Approx p) UInt32).inside u = true) {g inv : PlaneOp UInt32} (hg : g = PlaneOp.identity)
    (hinv : g.inverse = .ok inv) : (inv.apply u).value.re ∈ (unitInterval : Interval (Approx p)).toSet := by
  subst hg
  obtain rfl : PlaneOp.identity = inv := Except.ok.inj hinv
  rw [PlaneOp.value_apply_identity_stored (.of_lt (by omega))]
  exact (boxedDisk_parts hexp hu).1

/-- Lines in the direction of the second axis, from points of the first, have their parameters in the slices. -/
theorem sliceCovers_boxedDisk (hp : 2 ≤ p) {origin direction : CycloFrac UInt32} (horigin : origin.value.im = 0)
    (hdirection : direction = imaginaryUnit) : SliceCovers (boxedDisk : Region (Approx p) UInt32) 0 origin direction := by
  intro t u _ hexp hu hvalue
  refine ⟨unitInterval, rfl, toSet_subset_padded hp fits_unitInterval ?_⟩
  have him := (boxedDisk_parts hexp hu).2
  rwa [hvalue, hdirection, Complex.add_im, Complex.im_ofReal_mul, horigin, value_imaginaryUnit, Complex.I_im, zero_add,
    mul_one] at him

theorem mem_of_mem_solutions {alpha : QuadInt}
    (h : alpha ∈ Line.solutions (padded unitInterval) (padded unitInterval : Interval (Approx 86)) 1) :
    alpha ∈ ([⟨0, -1⟩, ⟨-1, 0⟩, ⟨0, 0⟩, ⟨1, 0⟩, ⟨0, 1⟩] : List QuadInt) := by
  have hends : Scalar.atMost (⟨-9, -3⟩ : Approx 86) (padded unitInterval).lo = true ∧
      Scalar.atMost (padded unitInterval).hi (⟨9, -3⟩ : Approx 86) = true := by
    decide +kernel
  have hpadded : (padded unitInterval : Interval (Approx 86)).toSet ⊆ Set.Icc (-(9 / 8)) (9 / 8) := by
    have hlo := (Approx.atMost_iff (by norm_num) _ _).1 hends.1
    have hhi := (Approx.atMost_iff (by norm_num) _ _).1 hends.2
    refine Set.Icc_subset_Icc (le_of_eq_of_le ?_ hlo) (hhi.trans_eq ?_)
    · norm_num [Approx.toReal]
    · norm_num [Approx.toReal]
  have hle : (alpha.a : ℝ) ^ 2 + 2 * (alpha.b : ℝ) ^ 2 < 3 :=
    (Line.sq_add_le_of_mem_solutions hpadded hpadded h).trans_lt (by norm_num)
  obtain ⟨a, b⟩ := alpha
  have hlt : a ^ 2 + 2 * b ^ 2 < 3 := by exact_mod_cast hle
  obtain ⟨ha, ha'⟩ := abs_lt_of_sq_lt_sq' (by linarith [sq_nonneg b] : a ^ 2 < 2 ^ 2) (by norm_num)
  obtain ⟨hb, hb'⟩ := abs_lt_of_sq_lt_sq' (by linarith [sq_nonneg a] : b ^ 2 < 2 ^ 2) (by norm_num)
  interval_cases a <;> interval_cases b <;> simp at hlt ⊢

/-- A column whose values have all been taken has ended. -/
theorem exhausts_of_take? {parity : ℤ} {out : List QuadInt} (htake : take? Line.step 9 (Line.scaledWithParity
      (padded unitInterval) (padded unitInterval : Interval (Approx 86)) 1 parity) = some out) (hlength : out.length < 9)
    (hall : ∀ beta ∈ ([⟨0, -1⟩, ⟨-1, 0⟩, ⟨0, 0⟩, ⟨1, 0⟩, ⟨0, 1⟩] : List QuadInt), beta.a % 2 = parity → beta ∈ out) :
    Exhausts (Line.scaledWithParity (padded unitInterval) (padded unitInterval : Interval (Approx 86)) 1 parity)
      {beta ∈ Line.solutions (padded unitInterval) (padded unitInterval : Interval (Approx 86)) 1 |
        beta.a % 2 = parity} :=
  ⟨out, (take?_spec htake).2 hlength, fun _ h => hall _ (mem_of_mem_solutions h.1) h.2⟩

/-- Points of the first axis are real, and so are their conjugates. -/
theorem origin_identity_im (first second : Region (Approx p) UInt32) {k : UInt32}
    (hop : Storable (PlaneOp.identity : PlaneOp UInt32) (load k))
    (alpha : QuadInt) : ((problem first second PlaneOp.identity k).origin alpha).value.im = 0 ∧
      ((problem first second PlaneOp.identity k).origin alpha).bullet.value.im = 0 := by
  have haxis : (PlaneOp.identity : PlaneOp UInt32).apply 1 = 1 := by decide
  have hbullet : (RootFrac.bullet 1 : CycloFrac UInt32) = 1 := by decide
  have hstores := hop.stores_axis 1 alpha
  have horigin : (problem first second PlaneOp.identity k).origin alpha = ofReal ⟨alpha, next k⟩ * 1 :=
    congrArg (ofReal ⟨alpha, next k⟩ * ·) haxis
  rw [show (RootFrac.ofRing 1 : CycloFrac UInt32) = 1 from rfl, haxis] at hstores
  have : Stores UInt32 (load (ofReal (RootFrac.bullet ⟨alpha, next k⟩) : CycloFrac UInt32).exp + load (1 : CycloFrac UInt32).exp) :=
    hstores
  rw [horigin]
  constructor
  · rw [RootFrac.value_mul, RootFrac.value_one, mul_one, value_ofReal, QuadFrac.value_eq_toReal, Complex.ofReal_im]
  · rw [RootFrac.bullet_mul, hbullet, ofReal_bullet, RootFrac.value_mul, RootFrac.value_one, mul_one, value_ofReal,
      QuadFrac.value_eq_toReal, Complex.ofReal_im]

theorem storable_squarePair : Storable (squarePair p).op (load (0 : UInt32)) := by
  have hsmall : (squarePair p).op.IsSmallGridOp := PlaneOp.isSmallGridOp_identity
  exact ⟨hsmall.isGridOp, hsmall.stores_two_mul_depth, .of_lt (by have := hsmall.depth_le; change _ + (0 + 1) < _; omega)⟩

theorem covers_boxedDisk : Covers boxedDisk boxedDisk (squarePair 86) 0 := by
  have hop := storable_squarePair (p := 86)
  have hyAxis : (PlaneOp.identity : PlaneOp UInt32).apply imaginaryUnit = imaginaryUnit := by decide
  have hbullet : ((PlaneOp.identity : PlaneOp UInt32).apply imaginaryUnit).bullet = imaginaryUnit := by decide
  refine ⟨fits_unitInterval, fits_unitInterval, fun u hu inv hinv => boxedDisk_box hu.exp hu.first rfl hinv,
    fun u hu inv hinv => boxedDisk_box (u := u.bullet) hu.exp hu.second PlaneOp.bullet_identity hinv,
    fun alpha _ => sliceCovers_boxedDisk (by norm_num) (origin_identity_im _ _ hop _).1 hyAxis,
    fun alpha _ => sliceCovers_boxedDisk (by norm_num) (origin_identity_im _ _ hop _).2 hbullet, fun alpha halpha => ?_, ?_⟩
  · have htake : take? Line.step 9 (start (squarePair 86) 0).xs =
        some [⟨0, -1⟩, ⟨-1, 0⟩, ⟨0, 0⟩, ⟨1, 0⟩, ⟨0, 1⟩] := by
      decide +kernel
    obtain ⟨t, hrun⟩ := (take?_spec htake).1
    exact ⟨_, t, hrun, mem_of_mem_solutions halpha⟩
  · rintro alpha _ i j ⟨⟩ ⟨⟩
    rcases Int.emod_two_eq_zero_or_one alpha.a with h | h
    · have htake : take? Line.step 9 (Line.scaledWithParity (padded unitInterval)
          (padded unitInterval : Interval (Approx 86)) 1 0) = some [⟨0, -1⟩, ⟨0, 0⟩, ⟨0, 1⟩] := by
        decide +kernel
      rw [h]
      exact exhausts_of_take? htake (by decide) (by decide)
    · have htake : take? Line.step 9 (Line.scaledWithParity (padded unitInterval)
          (padded unitInterval : Interval (Approx 86)) 1 1) = some [⟨-1, 0⟩, ⟨1, 0⟩] := by
        decide +kernel
      rw [h]
      exact exhausts_of_take? htake (by decide) (by decide)

/-- Powers of `1 / √2` lie in the disk with their conjugates, also where twice the exponent wraps. -/
theorem solves_disk (e : E) : Solves (Disk.region : Region (Approx p) E) Disk.region (load e) ⟨1, e⟩ := by
  have hinside {u : CycloInt} (hu : u.absSq = 1) : Disk.inside (⟨u, e⟩ : CycloFrac E) = true := by
    rw [Disk.inside, bne_iff_ne, QuadFrac.order_eq, QuadFrac.toReal_one, Ne, compare_gt_iff_gt, not_lt, CycloFrac.absSq, hu,
      QuadFrac.toReal_eq, map_one]
    exact div_le_one_of_le₀ (one_le_pow₀ (Real.one_le_sqrt.2 one_le_two)) (by positivity)
  refine ⟨?_, rfl, hinside (by decide), ?_⟩
  · rw [RootFrac.reduce, if_neg (one_ne_zero : (1 : CycloInt) ≠ 0)]
    dsimp only
    cases hload : load e with
    | zero => exact congrArg (RootFrac.mk 1) (load_injective (load_zero.trans hload.symm))
    | succ k =>
      rw [RootFrac.divideOut, show RootTwoRing.overRoot? (1 : CycloInt) = none by decide, ← hload, store_load]
  · obtain heven | hodd := Nat.mod_two_eq_zero_or_one (load e)
    · rw [RootFrac.bullet_of_even heven]
      exact hinside (by decide)
    · rw [RootFrac.bullet_of_odd hodd]
      exact hinside (by decide)

/-- The points of exponent zero in the disk: with the identity as map, `ω` is among them. Of the points whose exponent is the
largest word, none is yielded, though `1 / √2 ^ (2 ^ 32 - 1)` is one. -/
theorem enumeration_sound_complete_disk : Storable (squarePair 86).op (load (0 : UInt32)) ∧
    Covers boxedDisk boxedDisk (squarePair 86) (0 : UInt32) ∧
    Reaches (step (enumeration boxedDisk boxedDisk (some (squarePair 86)) (load (0 : UInt32))).1)
      (enumeration boxedDisk boxedDisk (some (squarePair 86)) (load (0 : UInt32))).2 omega ∧
    Solves (Disk.region : Region (Approx 86) UInt32) Disk.region (load (4294967295 : UInt32)) ⟨1, 4294967295⟩ ∧
    ¬Reaches (step (enumeration Disk.region Disk.region (some (squarePair 86)) (load (4294967295 : UInt32))).1)
      (enumeration Disk.region Disk.region (some (squarePair 86)) (load (4294967295 : UInt32))).2 ⟨1, 4294967295⟩ := by
  refine ⟨storable_squarePair, covers_boxedDisk,
    (enumeration_sound_complete (by norm_num) _ _ _ 0).2 storable_squarePair covers_boxedDisk omega
      ⟨by decide, rfl, by decide, by decide⟩, solves_disk 4294967295, ?_⟩
  rintro ⟨out, t, hrun, hmem⟩
  have hempty := ((enumeration_sound_complete (by norm_num) _ _ _ _).1 out t hrun).2.2 (by decide)
  rw [hempty] at hmem
  exact List.not_mem_nil hmem

end Points

end CliffordT

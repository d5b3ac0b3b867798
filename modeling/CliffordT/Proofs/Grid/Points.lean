import CliffordT.Grid.Points
import CliffordT.Proofs.Grid.Soundness
import CliffordT.Proofs.Plane.Unbounded

/-!
What the two-dimensional enumeration yields solves the problem, and nothing is yielded twice.

A point is yielded only after it has been accepted. It has one pair of coordinates along the images of the axes, since these are
independent, and both coordinates are yielded once by enumerations in one dimension. So points of one column differ in the second
coordinate and points of different columns in the first. Points of the lines are sums of products, and they have one pair of
coordinates as long as the sums of exponents can be stored.
-/

namespace CliffordT

namespace Points

open Exponent Progress

/-! ### Steps and runs -/

section General

variable {K E : Type} [NumericScalar K] [Exponent E] {prob : Problem K E}

/-- The point of the first axis with a given coordinate. -/
def Problem.origin (prob : Problem K E) (alpha : QuadInt) : CycloFrac E :=
  CycloFrac.ofReal ⟨alpha, next prob.exponent⟩ * prob.xAxis

/-- A column is opened where both slices are there. -/
theorem column?_eq_some_iff (alpha : QuadInt) (c : Column K E) : prob.column? alpha = some c ↔
    ∃ i j, prob.first.slice? (prob.origin alpha) prob.yAxis = some i ∧
      prob.second.slice? (prob.origin alpha).bullet prob.yAxis.bullet = some j ∧
      c = ⟨prob.origin alpha, Line.scaledWithParity (padded i) (padded j) (load (next prob.exponent)) (alpha.a % 2)⟩ := by
  have horigin : CycloFrac.ofReal ⟨alpha, next prob.exponent⟩ * prob.xAxis = prob.origin alpha := rfl
  rw [Problem.column?, horigin]
  cases prob.first.slice? (prob.origin alpha) prob.yAxis with
  | none => simp
  | some i =>
    cases prob.second.slice? (prob.origin alpha).bullet prob.yAxis.bullet with
    | none => simp
    | some j =>
      constructor
      · intro h
        exact ⟨i, j, rfl, rfl, (Option.some.inj h).symm⟩
      · rintro ⟨_, _, ⟨⟩, ⟨⟩, rfl⟩
        rfl

/-- What a quiet step can do. -/
theorem step_quiet {s s' : State K E} (h : step prob s = .quiet s') :
    (∃ c, s.column = some c ∧ ((Line.step c.ys = .done ∧ s' = { s with column := none }) ∨
      (∃ ys, Line.step c.ys = .quiet ys ∧ s' = { s with column := some { c with ys := ys } }) ∨
      ∃ beta ys, Line.step c.ys = .found beta ys ∧ prob.accept? c.origin beta = none ∧
        s' = { s with column := some { c with ys := ys } })) ∨
    (s.column = none ∧ ((∃ xs, Line.step s.xs = .quiet xs ∧ s' = { s with xs := xs }) ∨
      ∃ alpha xs, Line.step s.xs = .found alpha xs ∧ s' = ⟨xs, prob.column? alpha⟩)) := by
  rw [step] at h
  split at h
  · next c hcolumn =>
    refine .inl ⟨c, hcolumn, ?_⟩
    split at h
    · next hdone => exact .inl ⟨hdone, (Progress.quiet.inj h).symm⟩
    · next ys hquiet => exact .inr (.inl ⟨ys, hquiet, (Progress.quiet.inj h).symm⟩)
    · next beta ys hfound =>
      dsimp only at h
      split at h
      · cases h
      · next haccept => exact .inr (.inr ⟨beta, ys, hfound, haccept, (Progress.quiet.inj h).symm⟩)
  · next hcolumn =>
    refine .inr ⟨hcolumn, ?_⟩
    split at h
    · cases h
    · next xs hquiet => exact .inl ⟨xs, hquiet, (Progress.quiet.inj h).symm⟩
    · next alpha xs hfound => exact .inr ⟨alpha, xs, hfound, (Progress.quiet.inj h).symm⟩

theorem step_found {s s' : State K E} {u : CycloFrac E} (h : step prob s = .found u s') : ∃ c beta ys,
    s.column = some c ∧ Line.step c.ys = .found beta ys ∧ prob.accept? c.origin beta = some u ∧
      s' = { s with column := some { c with ys := ys } } := by
  rw [step] at h
  split at h
  · next c hcolumn =>
    split at h
    · cases h
    · cases h
    · next beta ys hfound =>
      dsimp only at h
      split at h
      · next v haccept =>
        obtain ⟨rfl, rfl⟩ := Progress.found.inj h
        exact ⟨c, beta, ys, hcolumn, hfound, haccept, rfl⟩
      · cases h
  · split at h <;> cases h

theorem run_column {ys ys' : Line.State K} {out : List QuadInt} (h : Run Line.step ys out ys') (xs : Line.State K)
    (origin : CycloFrac E) : Run (step prob) ⟨xs, some ⟨origin, ys⟩⟩ (out.filterMap (prob.accept? origin))
      ⟨xs, some ⟨origin, ys'⟩⟩ := by
  induction h with
  | refl ys => exact .refl _
  | quiet hstep _ ih => exact .quiet (by simp only [step, hstep]) ih
  | @found ys ys' ys'' beta out hstep _ ih =>
    rw [List.filterMap_cons]
    cases haccept : prob.accept? origin beta with
    | none => exact .quiet (by simp only [step, hstep, haccept]) ih
    | some u => exact .found (by simp only [step, hstep, haccept]) ih

/-- An enumeration in one dimension that ends, and has yielded some numbers by then. -/
def Exhausts (s : Line.State K) (numbers : Set QuadInt) : Prop := ∃ out, Yields Line.step s out ∧ numbers ⊆ {x | x ∈ out}

/-- A column that ends yields the accepted points of all its numbers. -/
theorem run_exhausted (prob : Problem K E) {c : Column K E} {numbers : Set QuadInt} (h : Exhausts c.ys numbers) (xs : Line.State K) :
    ∃ out, Run (step prob) ⟨xs, some c⟩ out ⟨xs, none⟩ ∧
      ∀ beta ∈ numbers, ∀ u, prob.accept? c.origin beta = some u → u ∈ out := by
  obtain ⟨betas, ⟨ys, hrun, hend⟩, hall⟩ := h
  have hlast : Run (step prob) ⟨xs, some ⟨c.origin, ys⟩⟩ [] ⟨xs, none⟩ := .quiet (by simp only [step, hend]) (.refl _)
  refine ⟨_, (run_column hrun xs c.origin).trans hlast, fun beta hbeta u hu => ?_⟩
  rw [List.append_nil]
  exact List.mem_filterMap.2 ⟨beta, hall hbeta, hu⟩

/-- If all columns end, a run over first coordinates yields the accepted points of all their columns. -/
theorem run_columns (prob : Problem K E) {xs xs' : Line.State K} {alphas : List QuadInt} (h : Run Line.step xs alphas xs')
    (numbers : QuadInt → Set QuadInt)
    (hcolumns : ∀ alpha ∈ alphas, ∀ c, prob.column? alpha = some c → Exhausts c.ys (numbers alpha)) :
    ∃ out, Run (step prob) ⟨xs, none⟩ out ⟨xs', none⟩ ∧ ∀ alpha ∈ alphas, ∀ c, prob.column? alpha = some c →
      ∀ beta ∈ numbers alpha, ∀ u, prob.accept? c.origin beta = some u → u ∈ out := by
  induction h with
  | refl xs => exact ⟨[], .refl _, fun _ h => absurd h List.not_mem_nil⟩
  | quiet hstep _ ih =>
    obtain ⟨out, hrun, hout⟩ := ih hcolumns
    exact ⟨out, .quiet (by simp only [step, hstep]) hrun, hout⟩
  | @found xs xs' xs'' alpha alphas hstep _ ih =>
    obtain ⟨hfirst, hrest⟩ := List.forall_mem_cons.1 hcolumns
    obtain ⟨out, hrun, hout⟩ := ih hrest
    obtain ⟨column, hcolumn, hmem⟩ : ∃ column, Run (step prob) ⟨xs', prob.column? alpha⟩ column ⟨xs', none⟩ ∧
        ∀ c, prob.column? alpha = some c → ∀ beta ∈ numbers alpha, ∀ u, prob.accept? c.origin beta = some u →
          u ∈ column := by
      cases hopen : prob.column? alpha with
      | none => exact ⟨[], .refl _, fun _ h => by cases h⟩
      | some c =>
        obtain ⟨column, hcolumn, hmem⟩ := run_exhausted prob (hfirst c hopen) xs'
        refine ⟨column, hcolumn, ?_⟩
        rintro _ ⟨⟩
        exact hmem
    refine ⟨column ++ out, .quiet (by simp only [step, hstep]) (hcolumn.trans hrun), List.forall_mem_cons.2 ⟨?_, ?_⟩⟩
    · exact fun c hc beta hbeta u hu => List.mem_append_left _ (hmem c hc beta hbeta u hu)
    · exact fun a ha c hc beta hbeta u hu => List.mem_append_right _ (hout a ha c hc beta hbeta u hu)

/-- A point that solves the problem for two regions. -/
structure Solves (first second : Region K E) (k : ℕ) (u : CycloFrac E) : Prop where
  /-- It is given in lowest terms. -/
  reduced : u.reduce = u
  /-- Its denominator exponent. -/
  exp : load u.exp = k
  /-- It lies in the first region. -/
  first : first.inside u = true
  /-- Its conjugate lies in the second region. -/
  second : second.inside u.bullet = true

omit [NumericScalar K] in
theorem accept?_eq_some_iff (origin : CycloFrac E) (beta : QuadInt) (u : CycloFrac E) :
    prob.accept? origin beta = some u ↔
      (origin + CycloFrac.ofReal ⟨beta, next prob.exponent⟩ * prob.yAxis).reduce = u ∧
        Solves prob.first prob.second (load prob.exponent) u := by
  rw [Problem.accept?]
  rw [Option.ite_none_right_eq_some, Bool.and_eq_true, Bool.and_eq_true, decide_eq_true_eq, Option.some_inj]
  constructor
  · rintro ⟨⟨⟨hexp, hfirst⟩, hsecond⟩, rfl⟩
    exact ⟨rfl, RootFrac.reduce_reduce _, hexp, hfirst, hsecond⟩
  · rintro ⟨rfl, h⟩
    exact ⟨⟨⟨h.exp, h.first⟩, h.second⟩, rfl⟩

/-- The column at work begins at a point of the first axis. -/
def Problem.OnAxis (prob : Problem K E) (s : State K E) : Prop := ∀ c ∈ s.column, ∃ alpha, c.origin = prob.origin alpha

theorem Problem.OnAxis.quiet {s s' : State K E} (hs : prob.OnAxis s) (h : step prob s = .quiet s') : prob.OnAxis s' := by
  obtain ⟨c, hc, ⟨-, rfl⟩ | ⟨ys, -, rfl⟩ | ⟨beta, ys, -, -, rfl⟩⟩ | ⟨hc, ⟨xs, -, rfl⟩ | ⟨alpha, xs, -, rfl⟩⟩ := step_quiet h
  · rintro _ ⟨⟩
  · rintro _ ⟨⟩
    exact hs c hc
  · rintro _ ⟨⟩
    exact hs c hc
  · exact hs
  · intro c hcolumn
    obtain ⟨i, j, -, -, rfl⟩ := (column?_eq_some_iff alpha c).1 hcolumn
    exact ⟨alpha, rfl⟩

/-- Every point that is yielded has two coordinates and has been accepted. -/
theorem accepted_of_run {s t : State K E} {out : List (CycloFrac E)} (h : Run (step prob) s out t) (hs : prob.OnAxis s) :
    ∀ u ∈ out, ∃ alpha beta, prob.accept? (prob.origin alpha) beta = some u := by
  induction h with
  | refl s => exact fun u hu => absurd hu List.not_mem_nil
  | quiet hstep _ ih => exact ih (hs.quiet hstep)
  | found hstep _ ih =>
    obtain ⟨c, beta, ys, hc, -, haccept, rfl⟩ := step_found hstep
    obtain ⟨alpha, horigin⟩ := hs c hc
    refine List.forall_mem_cons.2 ⟨⟨alpha, beta, horigin ▸ haccept⟩, ih ?_⟩
    rintro _ ⟨⟩
    exact ⟨alpha, horigin⟩

end General

/-! ### Coordinates -/

section Coordinates

open CycloFrac

/-- A point given by coordinates along the images of the axes is the image of the point with these coordinates. -/
theorem value_point (g : PlaneOp ℕ) (x y : QuadFrac ℕ) :
    (ofReal x * g.apply 1 + ofReal y * g.apply imaginaryUnit).value = (g.apply (ofParts x y)).value := by
  have hone : ofParts 1 0 = (1 : CycloFrac ℕ) := by decide
  have hunit : ofParts 0 1 = (imaginaryUnit : CycloFrac ℕ) := by decide
  obtain ⟨hre, him⟩ := value_parts_ofParts x y
  obtain ⟨hre₁, him₁⟩ := value_parts_ofParts (1 : QuadFrac ℕ) 0
  obtain ⟨hreI, himI⟩ := value_parts_ofParts (0 : QuadFrac ℕ) 1
  rw [RootFrac.value_add, RootFrac.value_mul, RootFrac.value_mul, value_ofReal, value_ofReal, PlaneOp.value_apply,
    PlaneOp.value_apply, PlaneOp.value_apply, hre, him, ← hone, ← hunit, hre₁, him₁, hreI, himI, RootFrac.value_one,
    RootFrac.value_zero]
  ring

/-- The images of the axes under a grid operator are independent. -/
theorem coordinates_eq {g : PlaneOp ℕ} (hg : g.IsGridOp) {x y x' y' : QuadFrac ℕ}
    (h : (ofReal x * g.apply 1 + ofReal y * g.apply imaginaryUnit).value =
      (ofReal x' * g.apply 1 + ofReal y' * g.apply imaginaryUnit).value) : x.value = x'.value ∧ y.value = y'.value := by
  obtain ⟨inv, _, _, hleft, _⟩ := hg.inverse
  rw [value_point, value_point] at h
  have heq := PlaneOp.apply_congr (g := inv) rfl h
  rw [hleft, hleft, RootFrac.reduce_eq_iff, value_ofParts, value_ofParts] at heq
  exact parts_eq heq

/-- A grid operator whose images of points with a denominator exponent can be stored. -/
structure Storable {E : Type} [Exponent E] (g : PlaneOp E) (k : ℕ) : Prop where
  /-- The map. -/
  isGridOp : g.IsGridOp
  /-- Products of two entries. -/
  products : Stores E (2 * g.depth)
  /-- Images. -/
  images : Stores E (g.depth + (k + 1))

variable {K E : Type} [Exponent E] {first second : Region K E} {g : PlaneOp E} {k : E}

namespace Storable

theorem isGridOp_unbounded {k : ℕ} (hg : Storable g k) : g.unbounded.IsGridOp :=
  (PlaneOp.isGridOp_unbounded_iff hg.products).2 hg.isGridOp

theorem stores_succ {k : ℕ} (hg : Storable g k) : Stores E (k + 1) := hg.images.of_le (Nat.le_add_left _ _)

/-- The images of the axes lie in `ℤ[ω]`, so multiples of them have the exponent of the factor. -/
theorem stores_axis (hg : Storable g (load k)) (u : CycloInt) (r : QuadInt) :
    Stores E (load (ofReal ⟨r, next k⟩ : CycloFrac E).exp + load (g.apply (RootFrac.ofRing u)).exp) := by
  have := hg.stores_succ
  obtain ⟨v, hv⟩ := hg.isGridOp.maps ⟨u, rfl⟩
  rw [← hv, RootFrac.exp_ofRing, add_zero]
  exact hg.stores_succ.of_le (load_next k).le

theorem unbounded_axis (hg : Storable g (load k)) (u : CycloInt) (r : QuadInt) :
    (ofReal ⟨r, next k⟩ * g.apply (RootFrac.ofRing u)).unbounded =
      ofReal ⟨r, load k + 1⟩ * g.unbounded.apply (RootFrac.ofRing u) := by
  have := hg.stores_succ
  have := hg.stores_axis u r
  have hcoordinate : (⟨r, next k⟩ : QuadFrac E).unbounded = ⟨r, load k + 1⟩ := congrArg (RootFrac.mk r) (load_next k)
  have himage : Stores E (g.depth + (load (RootFrac.ofRing u : CycloFrac E).exp + 1)) := by
    rw [RootFrac.exp_ofRing]
    exact hg.images.of_le (by omega)
  rw [RootFrac.unbounded_mul, unbounded_ofReal, hcoordinate, PlaneOp.unbounded_apply himage, RootFrac.unbounded_ofRing]

end Storable

/-- The point with given coordinates, with exponents of any size. -/
theorem unbounded_point (hg : Storable g (load k)) (alpha beta : QuadInt) :
    ((problem first second g k).origin alpha + ofReal ⟨beta, next k⟩ * (problem first second g k).yAxis).unbounded =
      ofReal ⟨alpha, load k + 1⟩ * g.unbounded.apply 1 + ofReal ⟨beta, load k + 1⟩ * g.unbounded.apply imaginaryUnit := by
  rw [RootFrac.unbounded_add]
  exact congrArg₂ _ (hg.unbounded_axis 1 alpha) (hg.unbounded_axis CycloInt.imaginaryUnit beta)

end Coordinates

/-! ### Runs from the start -/

variable {p : ℕ} {E : Type} [Exponent E] {first second : Region (Approx p) E} {g : PlaneOp E} {k : E}

theorem accept?_injective (hg : Storable g (load k)) {alpha beta alpha' beta' : QuadInt} {u : CycloFrac E}
    (h : (problem first second g k).accept? ((problem first second g k).origin alpha) beta = some u)
    (h' : (problem first second g k).accept? ((problem first second g k).origin alpha') beta' = some u) :
    alpha = alpha' ∧ beta = beta' := by
  have heq := ((accept?_eq_some_iff _ _ _).1 h).1.trans ((accept?_eq_some_iff _ _ _).1 h').1.symm
  have hvalue := RootFrac.reduce_eq_iff.1 heq
  rw [← RootFrac.value_unbounded, ← RootFrac.value_unbounded (_ + _)] at hvalue
  obtain ⟨hx, hy⟩ := coordinates_eq hg.isGridOp_unbounded
    ((congrArg RootFrac.value (unbounded_point hg alpha beta)).symm.trans
      (hvalue.trans (congrArg RootFrac.value (unbounded_point hg alpha' beta'))))
  have hnum {r s : QuadInt} (h : (⟨r, load k + 1⟩ : QuadFrac ℕ).value = (⟨s, load k + 1⟩ : QuadFrac ℕ).value) : r = s :=
    (RootFrac.mk.inj (RootFrac.eq_of_value (by rfl) h)).1
  exact ⟨hnum hx, hnum hy⟩

/-- The coordinates that are still to come are apart from those that have come. -/
structure Apart (prob : Problem (Approx p) E) (s : State (Approx p) E) : Prop where
  /-- The first coordinates. -/
  xs : Line.Separate s.xs
  /-- The second coordinates of the column at work. -/
  ys : ∀ c ∈ s.column, Line.Separate c.ys
  /-- The first coordinate of the column at work. -/
  origin : ∀ c ∈ s.column, ∃ alpha, alpha ∉ s.xs.ahead ∧ c.origin = prob.origin alpha

/-- The points that may still be yielded. -/
def Problem.ahead (prob : Problem (Approx p) E) (s : State (Approx p) E) : Set (CycloFrac E) :=
  {u | (∃ c ∈ s.column, ∃ beta ∈ c.ys.ahead, prob.accept? c.origin beta = some u) ∨
    ∃ alpha ∈ s.xs.ahead, ∃ beta, prob.accept? (prob.origin alpha) beta = some u}

theorem separate_ys {prob : Problem (Approx p) E} {alpha : QuadInt} {c : Column (Approx p) E}
    (h : prob.column? alpha = some c) : Line.Separate c.ys ∧ c.origin = prob.origin alpha := by
  obtain ⟨i, j, _, _, rfl⟩ := (column?_eq_some_iff alpha c).1 h
  exact ⟨Line.separate_scaledWithParity _ _ _ _, rfl⟩

/-- A quiet step adds no points. -/
theorem Apart.quiet (hp : 2 ≤ p) {prob : Problem (Approx p) E} {s s' : State (Approx p) E} (hs : Apart prob s)
    (h : step prob s = .quiet s') : Apart prob s' ∧ prob.ahead s' ⊆ prob.ahead s := by
  obtain ⟨xs, column⟩ := s
  obtain ⟨hxs, hys, horigin⟩ := hs
  obtain ⟨c, rfl, hcases⟩ | ⟨rfl, hcases⟩ := step_quiet h
  · -- the column at work goes on or ends
    have hgoes {ys : Line.State (Approx p)} (hstep : Line.Separate ys ∧ ys.ahead ⊆ c.ys.ahead) :
        Apart prob ⟨xs, some { c with ys := ys }⟩ ∧
          prob.ahead ⟨xs, some { c with ys := ys }⟩ ⊆ prob.ahead ⟨xs, some c⟩ := by
      refine ⟨⟨hxs, ?_, ?_⟩, ?_⟩
      · rintro _ ⟨⟩
        exact hstep.1
      · rintro _ ⟨⟩
        exact horigin c rfl
      · rintro u (⟨_, ⟨⟩, beta, hbeta, hu⟩ | hu)
        · exact .inl ⟨c, rfl, beta, hstep.2 hbeta, hu⟩
        · exact .inr hu
    obtain ⟨_, rfl⟩ | ⟨ys, hquiet, rfl⟩ | ⟨beta, ys, hfound, _, rfl⟩ := hcases
    · refine ⟨⟨hxs, ?_, ?_⟩, ?_⟩
      · rintro _ ⟨⟩
      · rintro _ ⟨⟩
      · rintro u (⟨_, ⟨⟩, _⟩ | hu)
        exact .inr hu
    · exact hgoes ((hys c rfl).ahead_quiet hp hquiet)
    · obtain ⟨hsep, _, hsub⟩ := (hys c rfl).ahead_found hfound
      exact hgoes ⟨hsep, hsub.trans Set.sdiff_subset⟩
  · obtain ⟨xs', hquiet, rfl⟩ | ⟨alpha, xs', hfound, rfl⟩ := hcases
    · obtain ⟨hsep, hsub⟩ := hxs.ahead_quiet hp hquiet
      refine ⟨⟨hsep, ?_, ?_⟩, ?_⟩
      · rintro _ ⟨⟩
      · rintro _ ⟨⟩
      · rintro u (⟨_, ⟨⟩, _⟩ | ⟨alpha, halpha, hu⟩)
        exact .inr ⟨alpha, hsub halpha, hu⟩
    · obtain ⟨hsep, hmem, hsub⟩ := hxs.ahead_found hfound
      refine ⟨⟨hsep, ?_, ?_⟩, ?_⟩
      · exact fun c hc => (separate_ys hc).1
      · exact fun c hc => ⟨alpha, fun hin => (hsub hin).2 rfl, (separate_ys hc).2⟩
      · rintro u (⟨c, hc, beta, _, hu⟩ | ⟨alpha', halpha', hu⟩)
        · rw [(separate_ys hc).2] at hu
          exact .inr ⟨alpha, hmem, beta, hu⟩
        · exact .inr ⟨alpha', (hsub halpha').1, hu⟩

/-- A yielded point was ahead and is not ahead any more. -/
theorem Apart.found (hg : Storable g (load k)) {s s' : State (Approx p) E} {u : CycloFrac E}
    (hs : Apart (problem first second g k) s) (h : step (problem first second g k) s = .found u s') :
    Apart (problem first second g k) s' ∧ u ∈ (problem first second g k).ahead s ∧
      (problem first second g k).ahead s' ⊆ (problem first second g k).ahead s \ {u} := by
  obtain ⟨xs, column⟩ := s
  obtain ⟨hxs, hys, horigin⟩ := hs
  obtain ⟨c, beta, ys, rfl, hfound, haccept, rfl⟩ := step_found h
  obtain ⟨hsep, hmem, hsub⟩ := (hys c rfl).ahead_found hfound
  obtain ⟨alpha, halpha, hc⟩ := horigin c rfl
  have haccept' := haccept
  rw [hc] at haccept'
  refine ⟨⟨hxs, ?_, ?_⟩, .inl ⟨c, rfl, beta, hmem, haccept⟩, ?_⟩
  · rintro _ ⟨⟩
    exact hsep
  · rintro _ ⟨⟩
    exact ⟨alpha, halpha, hc⟩
  · rintro v (⟨_, ⟨⟩, beta', hbeta', hv⟩ | ⟨alpha', halpha', beta', hv⟩)
    · refine ⟨.inl ⟨c, rfl, beta', (hsub hbeta').1, hv⟩, ?_⟩
      rintro rfl
      have hv' : (problem first second g k).accept? ((problem first second g k).origin alpha) beta' = some v := hc ▸ hv
      exact (hsub hbeta').2 (accept?_injective hg hv' haccept').2
    · refine ⟨.inr ⟨alpha', halpha', beta', hv⟩, ?_⟩
      rintro rfl
      exact halpha ((accept?_injective hg hv haccept').1 ▸ halpha')

/-- In any part of a run no point is yielded twice. -/
theorem nodup_of_run_start (hp : 2 ≤ p) {pair : UprightPair (Approx p) E} (hop : Storable pair.op (load k))
    {out : List (CycloFrac E)} {t : State (Approx p) E}
    (h : Run (step (problem first second pair.op k)) (start pair k) out t) : out.Nodup := by
  have hstart : Apart (problem first second pair.op k) (start pair k) := by
    refine ⟨Line.separate_scaled _ _ _, ?_, ?_⟩
    · rintro _ ⟨⟩
    · rintro _ ⟨⟩
  exact (h.nodup (fun _ _ hs hstep => hs.quiet hp hstep) (fun _ _ _ hs hstep => hs.found hop hstep) hstart).1

/-- What is yielded solves the problem, and its exponent is not larger than those of the coordinates allow. -/
theorem solves_of_run_start {K : Type} [NumericScalar K] {first second : Region K E} {pair : UprightPair K E}
    {out : List (CycloFrac E)} {t : State K E} (h : Run (step (problem first second pair.op k)) (start pair k) out t)
    {u : CycloFrac E} (hu : u ∈ out) :
    Solves first second (load k) u ∧ load k ≤ load (next k) + (pair.op.depth + 1) := by
  obtain ⟨alpha, beta, haccept⟩ := accepted_of_run h (by rintro _ ⟨⟩) u hu
  obtain ⟨rfl, hsolves⟩ := (accept?_eq_some_iff _ _ _).1 haccept
  refine ⟨hsolves, ?_⟩
  have haxis (v : CycloInt) (r : QuadInt) : load (CycloFrac.ofReal ⟨r, next k⟩ * pair.op.apply (RootFrac.ofRing v)).exp ≤
      load (next k) + (pair.op.depth + 1) := by
    have haxis := PlaneOp.exp_apply_le pair.op (RootFrac.ofRing v)
    rw [RootFrac.exp_ofRing] at haxis
    exact (load_store_le _).trans (Nat.add_le_add_left haxis _)
  have hexp := hsolves.exp
  change _ = load k at hexp
  rw [← hexp]
  refine (RootFrac.load_reduce_le _).trans ?_
  rw [RootFrac.exp_add]
  exact max_le (haxis 1 alpha) (haxis CycloInt.imaginaryUnit beta)

end Points

end CliffordT

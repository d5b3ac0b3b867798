import CliffordT.Plane.Reduction
import CliffordT.Proofs.NormEquation.UnitLog
import CliffordT.Proofs.Ring.Conjugate

/-!
Grid operators, the linear maps of determinant one or minus one that take `ℤ[ω]` to itself.

A point lies in `ℤ[ω]` when `√2` times its coordinates lie in `ℤ[√2]` and their integer parts are congruent modulo two. So a
map preserves `ℤ[ω]` when its entries are numerators over `√2` that satisfy four parity conditions. These conditions
survive everything a reduction does with a map: a shift by `λ^k` keeps the parity of an integer part and changes
that of a coefficient of `√2` by `k` times the other, and it does so twice.
-/

namespace CliffordT

namespace CycloFrac

/-- Coordinates `r / √2` and `s / √2` belong to a point of `ℤ[ω]` when the integer parts of `r` and `s` have the same
parity. -/
theorem value_eq_ofRing {p : CycloFrac ℕ} {r s : QuadInt} (hre : (re p).value = (⟨r, 1⟩ : QuadFrac ℕ).value)
    (him : (im p).value = (⟨s, 1⟩ : QuadFrac ℕ).value) (hpar : Even (r.a + s.a)) :
    ∃ u : CycloInt, p.value = (RootFrac.ofRing u : CycloFrac ℕ).value := by
  obtain ⟨m, hm⟩ := hpar
  refine ⟨⟨r.b, m, s.b, m - r.a⟩, (value_eq_iff _ _).2 ⟨?_, ?_⟩⟩
  · rw [hre]
    congr 2
    ext <;> simp [RootFrac.ofRing]
  · rw [him]
    congr 2
    ext
    · simp only [RootFrac.ofRing]
      omega
    · rfl

end CycloFrac

namespace RootFrac

variable {R E : Type} [RootTwoRing R] [NumberRing R] [DecidableEq R] [Exponent E]

omit [NumberRing R] in
theorem reduce_ofRing (r : R) : (ofRing r : RootFrac R E).reduce = ofRing r := by
  rw [reduce, exp_ofRing]
  split
  · next h => rw [show r = 0 from h]; rfl
  · rfl

theorem reduce_eq_ofRing_iff (x : RootFrac R E) (r : R) : x.reduce = ofRing r ↔ x.value = (ofRing r : RootFrac R E).value := by
  have h : x.reduce = (ofRing r : RootFrac R E).reduce ↔ x.value = (ofRing r : RootFrac R E).value := reduce_eq_iff
  rwa [reduce_ofRing] at h

end RootFrac

namespace PlaneOp

open CycloFrac

section

variable {E : Type} [Exponent E]

/-- The points of `ℤ[ω]`. -/
def lattice : Set (CycloFrac E) := Set.range RootFrac.ofRing

/-- Maps `ℤ[ω]` onto itself. -/
def Onto (g : PlaneOp E) : Prop := g.apply '' lattice = lattice

/-- A map of determinant one or minus one that takes points of `ℤ[ω]` to points of `ℤ[ω]`. -/
structure IsGridOp (g : PlaneOp E) : Prop where
  /-- The determinant. -/
  det : g.det = 1 ∨ g.det = -1
  /-- The images of points of `ℤ[ω]`. -/
  maps : Set.MapsTo g.apply lattice lattice

/-- The entries as complex numbers. -/
noncomputable def values (g : PlaneOp E) : Square ℂ := Square.map RootFrac.value g

theorem reduce_apply (g : PlaneOp E) (p : CycloFrac E) : (g.apply p).reduce = g.apply p := RootFrac.reduce_reduce _

end

/-! ### Values -/

theorem value_apply (g : PlaneOp ℕ) (p : CycloFrac ℕ) : (g.apply p).value =
    (g.m₀₀.value * (re p).value + g.m₀₁.value * (im p).value) +
      (g.m₁₀.value * (re p).value + g.m₁₁.value * (im p).value) * Complex.I := by
  simp [apply, value_ofParts]

theorem value_parts_apply (g : PlaneOp ℕ) (p : CycloFrac ℕ) :
    (re (g.apply p)).value = g.m₀₀.value * (re p).value + g.m₀₁.value * (im p).value ∧
      (im (g.apply p)).value = g.m₁₀.value * (re p).value + g.m₁₁.value * (im p).value := by
  have h := value_apply g p
  rw [value_eq_parts] at h
  simp only [← RootFrac.value_mul, ← RootFrac.value_add] at h ⊢
  exact parts_eq h

/-- The image depends on the values of the entries and of the point only. -/
theorem apply_congr {g h : PlaneOp ℕ} (hgh : g.values = h.values) {p q : CycloFrac ℕ} (hpq : p.value = q.value) :
    g.apply p = h.apply q := by
  rw [← reduce_apply, ← reduce_apply h, RootFrac.reduce_eq_iff, value_apply, value_apply]
  obtain ⟨h₀₀, h₀₁, h₁₀, h₁₁⟩ := Square.mk.inj hgh
  obtain ⟨hre, him⟩ := (value_eq_iff p q).1 hpq
  rw [h₀₀, h₀₁, h₁₀, h₁₁, hre, him]

theorem mapsTo_congr {g h : PlaneOp ℕ} (hgh : g.values = h.values) :
    Set.MapsTo g.apply lattice lattice ↔ Set.MapsTo h.apply lattice lattice := by
  rw [show g.apply = h.apply from funext fun p => apply_congr hgh rfl]

theorem onto_congr {g h : PlaneOp ℕ} (hgh : g.values = h.values) : Onto g ↔ Onto h := by
  rw [Onto, Onto, show g.apply = h.apply from funext fun p => apply_congr hgh rfl]

theorem apply_mem_iff {E : Type} [Exponent E] (g : PlaneOp E) (p : CycloFrac E) :
    g.apply p ∈ lattice ↔ ∃ u : CycloInt, (g.apply p).value = (RootFrac.ofRing u : CycloFrac E).value := by
  simp only [← RootFrac.reduce_eq_ofRing_iff, reduce_apply, lattice, Set.mem_range, eq_comm]

theorem values_compose (g h : PlaneOp ℕ) : (g.compose h).values = g.values * h.values := by
  have hentry (a b c d : QuadFrac ℕ) :
      (a * b + c * d).reduce.value = a.value * b.value + c.value * d.value := by
    rw [RootFrac.value_reduce, RootFrac.value_add, RootFrac.value_mul, RootFrac.value_mul]
  exact congr (congr (congrArg₂ Square.mk (hentry _ _ _ _) (hentry _ _ _ _)) (hentry _ _ _ _)) (hentry _ _ _ _)

theorem apply_compose (g h : PlaneOp ℕ) (p : CycloFrac ℕ) : (g.compose h).apply p = g.apply (h.apply p) := by
  obtain ⟨h₀₀, h₀₁, h₁₀, h₁₁⟩ := Square.mk.inj (values_compose g h)
  rw [← reduce_apply, ← reduce_apply g, RootFrac.reduce_eq_iff, value_apply, value_apply, (value_parts_apply h p).1,
    (value_parts_apply h p).2, h₀₀, h₀₁, h₁₀, h₁₁]
  simp only [values, Square.map]
  ring

theorem value_det (g : PlaneOp ℕ) :
    g.det.value = g.m₀₀.value * g.m₁₁.value - g.m₀₁.value * g.m₁₀.value := by
  simp [det]

theorem det_eq_of_value {g : PlaneOp ℕ} {x : QuadFrac ℕ} (h : g.det.value = x.value) : g.det = x.reduce := by
  rw [det, RootFrac.reduce_eq_iff]
  simpa [det] using h

theorem det_eq_one_iff (g : PlaneOp ℕ) : g.det = 1 ↔ g.det.value = 1 :=
  ⟨fun h => by rw [h, RootFrac.value_one], fun h => det_eq_of_value (h.trans RootFrac.value_one.symm)⟩

theorem det_eq_neg_one_iff (g : PlaneOp ℕ) : g.det = -1 ↔ g.det.value = -1 := by
  have hone : (-1 : QuadFrac ℕ).value = -1 := by rw [RootFrac.value_neg, RootFrac.value_one]
  exact ⟨fun h => by rw [h, hone], fun h => det_eq_of_value (h.trans hone.symm)⟩

/-! ### Parity -/

/-- The map with given numerators over `√2`. -/
def overRoot (n : Square QuadInt) : PlaneOp ℕ := Square.map (fun r => ⟨r, 1⟩) n

/-- All integer parts have the same parity, and the coefficients of `√2` have an even sum. -/
structure EvenSums (n : Square QuadInt) : Prop where
  /-- The integer parts of the first column. -/
  left : Even (n.m₀₀.a + n.m₁₀.a)
  /-- The integer parts of the second column. -/
  right : Even (n.m₀₁.a + n.m₁₁.a)
  /-- The integer parts of the first row. -/
  top : Even (n.m₀₀.a + n.m₀₁.a)
  /-- The coefficients of `√2`. -/
  all : Even (n.m₀₀.b + n.m₀₁.b + n.m₁₀.b + n.m₁₁.b)

theorem values_eq_overRoot_iff (g : PlaneOp ℕ) (n : Square QuadInt) : g.values = (overRoot n).values ↔
    (g.m₀₀.value = (⟨n.m₀₀, 1⟩ : QuadFrac ℕ).value ∧ g.m₀₁.value = (⟨n.m₀₁, 1⟩ : QuadFrac ℕ).value) ∧
      g.m₁₀.value = (⟨n.m₁₀, 1⟩ : QuadFrac ℕ).value ∧ g.m₁₁.value = (⟨n.m₁₁, 1⟩ : QuadFrac ℕ).value := by
  simp only [values, Square.map, overRoot, Square.mk.injEq, and_assoc]

theorem value_over_root (r : QuadInt) : (⟨r, 1⟩ : QuadFrac ℕ).value = NumberRing.value r / sqrtTwo := by
  rw [RootFrac.value_mk, Exponent.load_nat, pow_one]

theorem bullet_over_root (r : QuadInt) : (⟨r, 1⟩ : QuadFrac ℕ).bullet = ⟨-r.bullet, 1⟩ := rfl

theorem neg_over_root (r : QuadInt) : -(⟨r, 1⟩ : QuadFrac ℕ) = ⟨-r, 1⟩ := rfl

theorem value_timesRoot_over_root (r : QuadInt) :
    (⟨r.timesRoot, 1⟩ : QuadFrac ℕ).value = (RootFrac.ofRing r : QuadFrac ℕ).value := by
  have h : NumberRing.value r.timesRoot = NumberRing.value r * sqrtTwo := NumberRing.value_timesRoot r
  rw [value_over_root, RootFrac.value_ofRing, h, mul_div_cancel_right₀ _ sqrtTwo_ne_zero]

/-- A sum of two products over `√2` is over `√2` again if its integer part is even. -/
theorem value_dot {r s x y : QuadInt} (h : Even (r.a * x.a + s.a * y.a)) :
    ∃ t : QuadInt, t.a = (r * x + s * y).b ∧
      (⟨r, 1⟩ : QuadFrac ℕ).value * (⟨x, 1⟩ : QuadFrac ℕ).value + (⟨s, 1⟩ : QuadFrac ℕ).value * (⟨y, 1⟩ : QuadFrac ℕ).value =
        (⟨t, 1⟩ : QuadFrac ℕ).value := by
  obtain ⟨m, hm⟩ := h
  refine ⟨⟨(r * x + s * y).b, m + r.b * x.b + s.b * y.b⟩, rfl, ?_⟩
  have hroot : (⟨(r * x + s * y).b, m + r.b * x.b + s.b * y.b⟩ : QuadInt).timesRoot = r * x + s * y := by
    ext
    · simp only [QuadInt.timesRoot, QuadInt.add_a, QuadInt.mul_a]
      linarith
    · rfl
  have hvalue := congrArg NumberRing.value hroot
  rw [show QuadInt.timesRoot _ = RootTwoRing.timesRoot _ from rfl, NumberRing.value_timesRoot,
    NumberRing.value_add, NumberRing.value_mul, NumberRing.value_mul] at hvalue
  simp only [value_over_root]
  field_simp
  linear_combination -hvalue

theorem EvenSums.bottom {n : Square QuadInt} (h : EvenSums n) : Even (n.m₁₀.a + n.m₁₁.a) := by
  have hleft := h.left
  have hright := h.right
  have htop := h.top
  simp only [Int.even_add] at *
  tauto

theorem mapsTo_of_evenSums {g : PlaneOp ℕ} {n : Square QuadInt} (hg : g.values = (overRoot n).values) (hn : EvenSums n) :
    Set.MapsTo g.apply lattice lattice := by
  rintro _ ⟨u, rfl⟩
  rw [apply_mem_iff, apply_congr hg rfl]
  obtain ⟨hre, him⟩ := value_parts_apply (overRoot n) (RootFrac.ofRing u)
  -- a row times the coordinates `((u₁ - u₃) + u₀√2, (u₁ + u₃) + u₂√2)`
  have heven {r s : QuadInt} (h : Even (r.a + s.a)) : Even (r.a * (u.x₁ - u.x₃) + s.a * (u.x₁ + u.x₃)) := by
    obtain ⟨m, hm⟩ := h
    exact ⟨m * (u.x₁ + u.x₃) - r.a * u.x₃, by linear_combination (u.x₁ + u.x₃) * hm⟩
  obtain ⟨r, hr, hrow⟩ := value_dot (x := ⟨u.x₁ - u.x₃, u.x₀⟩) (y := ⟨u.x₁ + u.x₃, u.x₂⟩) (heven hn.top)
  obtain ⟨s, hs, hrow'⟩ := value_dot (x := ⟨u.x₁ - u.x₃, u.x₀⟩) (y := ⟨u.x₁ + u.x₃, u.x₂⟩) (heven hn.bottom)
  refine value_eq_ofRing (hre.trans hrow) (him.trans hrow') ?_
  obtain ⟨l, hl⟩ := hn.left
  obtain ⟨m, hm⟩ := hn.right
  obtain ⟨k, hk⟩ := hn.all
  refine ⟨l * u.x₀ + m * u.x₂ + k * (u.x₁ - u.x₃) + (n.m₀₁.b + n.m₁₁.b) * u.x₃, ?_⟩
  rw [hr, hs]
  simp only [QuadInt.add_b, QuadInt.mul_b]
  linear_combination u.x₀ * hl + u.x₂ * hm + (u.x₁ - u.x₃) * hk

theorem mem_parts {g : PlaneOp ℕ} {p : CycloFrac ℕ} (h : g.apply p ∈ lattice) : ∃ r s : QuadInt, Even (r.a + s.a) ∧
    g.m₀₀.value * (re p).value + g.m₀₁.value * (im p).value = (⟨r, 1⟩ : QuadFrac ℕ).value ∧
      g.m₁₀.value * (re p).value + g.m₁₁.value * (im p).value = (⟨s, 1⟩ : QuadFrac ℕ).value := by
  obtain ⟨u, hu⟩ := (apply_mem_iff g p).1 h
  obtain ⟨hre, him⟩ := (value_eq_iff _ _).1 hu
  rw [(value_parts_apply g p).1] at hre
  rw [(value_parts_apply g p).2] at him
  refine ⟨⟨u.x₁ - u.x₃, u.x₀⟩, ⟨u.x₁ + u.x₃, u.x₂⟩, ?_, hre, him⟩
  exact ⟨u.x₁, by ring⟩

/-- The images of `1`, `i` and `ω` determine the parities. -/
theorem evenSums_of_images {g : PlaneOp ℕ} (hone : g.apply 1 ∈ lattice) (hi : g.apply imaginaryUnit ∈ lattice)
    (homega : g.apply omega ∈ lattice) : ∃ n, g.values = (overRoot n).values ∧ EvenSums n := by
  obtain ⟨n₀₀, n₁₀, hleft, h₀₀, h₁₀⟩ := mem_parts hone
  obtain ⟨n₀₁, n₁₁, hright, h₀₁, h₁₁⟩ := mem_parts hi
  obtain ⟨r, s, hsum, hr, hs⟩ := mem_parts homega
  have hroot : (⟨⟨0, 1⟩, 1⟩ : QuadFrac ℕ).value = 1 :=
    (value_timesRoot_over_root 1).trans RootFrac.value_one
  have hzero : (⟨⟨0, 0⟩, 1⟩ : QuadFrac ℕ).value = 0 := by
    rw [value_over_root, show (⟨0, 0⟩ : QuadInt) = 0 from rfl, NumberRing.value_zero, zero_div]
  have hunit : (⟨⟨1, 0⟩, 1⟩ : QuadFrac ℕ).value = 1 / sqrtTwo := by
    rw [value_over_root, show (⟨1, 0⟩ : QuadInt) = 1 from rfl, NumberRing.value_one]
  have hre₁ : (re (1 : CycloFrac ℕ)).value = 1 := hroot
  have him₁ : (im (1 : CycloFrac ℕ)).value = 0 := hzero
  have hreI : (re (imaginaryUnit : CycloFrac ℕ)).value = 0 := hzero
  have himI : (im (imaginaryUnit : CycloFrac ℕ)).value = 1 := hroot
  have hreW : (re (omega : CycloFrac ℕ)).value = 1 / sqrtTwo := hunit
  have himW : (im (omega : CycloFrac ℕ)).value = 1 / sqrtTwo := hunit
  rw [hre₁, him₁, mul_one, mul_zero, add_zero] at h₀₀ h₁₀
  rw [hreI, himI, mul_one, mul_zero, zero_add] at h₀₁ h₁₁
  rw [hreW, himW] at hr hs
  -- a row of the image of `ω` is the sum of the row over `√2`
  have hrow : ∀ {x y t : QuadInt} {v w : ℂ}, v = (⟨x, 1⟩ : QuadFrac ℕ).value → w = (⟨y, 1⟩ : QuadFrac ℕ).value →
      v * (1 / sqrtTwo) + w * (1 / sqrtTwo) = (⟨t, 1⟩ : QuadFrac ℕ).value → x + y = t.timesRoot := by
    intro x y t v w hv hw ht
    apply NumberRing.value_injective
    rw [hv, hw, value_over_root, value_over_root, value_over_root] at ht
    rw [show QuadInt.timesRoot t = RootTwoRing.timesRoot t from rfl, NumberRing.value_timesRoot, NumberRing.value_add]
    field_simp at ht
    linear_combination ht
  have htop := hrow h₀₀ h₀₁ hr
  have hbottom := hrow h₁₀ h₁₁ hs
  have htopA := congrArg QuadInt.a htop
  have htopB := congrArg QuadInt.b htop
  have hbottomB := congrArg QuadInt.b hbottom
  simp only [QuadInt.timesRoot, QuadInt.add_a, QuadInt.add_b] at htopA htopB hbottomB
  refine ⟨⟨n₀₀, n₀₁, n₁₀, n₁₁⟩, (values_eq_overRoot_iff _ _).2 ⟨⟨h₀₀, h₀₁⟩, h₁₀, h₁₁⟩, hleft, hright,
    ⟨r.b, by dsimp only; omega⟩, ?_⟩
  · obtain ⟨m, hm⟩ := hsum
    exact ⟨m, by dsimp only; omega⟩

/-- A map preserves `ℤ[ω]` exactly when its numerators over `√2` satisfy the parity conditions. -/
theorem mapsTo_iff (g : PlaneOp ℕ) :
    Set.MapsTo g.apply lattice lattice ↔ ∃ n, g.values = (overRoot n).values ∧ EvenSums n := by
  constructor
  · intro h
    exact evenSums_of_images (h ⟨1, rfl⟩) (h ⟨CycloInt.imaginaryUnit, rfl⟩) (h ⟨CycloInt.omega, rfl⟩)
  · rintro ⟨n, hg, hn⟩
    exact mapsTo_of_evenSums hg hn

/-- An image is reduced, so its exponent tells whether it lies in `ℤ[ω]`. -/
theorem exp_apply_eq_zero_iff {E : Type} [Exponent E] (g : PlaneOp E) (p : CycloFrac E) :
    Exponent.load (g.apply p).reduce.exp = 0 ↔ g.apply p ∈ lattice := by
  rw [reduce_apply]
  constructor
  · intro h
    refine ⟨(g.apply p).num, ?_⟩
    rw [RootFrac.ofRing, Exponent.zero, ← h, Exponent.store_load]
  · rintro ⟨u, hu⟩
    rw [← hu, RootFrac.exp_ofRing]

theorem preservesLattice_eq_true_iff {E : Type} [Exponent E] (g : PlaneOp E) : g.preservesLattice = true ↔
    g.apply 1 ∈ lattice ∧ g.apply imaginaryUnit ∈ lattice ∧ g.apply omega ∈ lattice := by
  simp only [preservesLattice, List.all_cons, List.all_nil, Bool.and_true, Bool.and_eq_true, decide_eq_true_eq,
    exp_apply_eq_zero_iff]

/-- The three images that are looked at decide whether a map preserves `ℤ[ω]`. -/
theorem preservesLattice_iff (g : PlaneOp ℕ) : g.preservesLattice = true ↔ Set.MapsTo g.apply lattice lattice := by
  rw [preservesLattice_eq_true_iff]
  constructor
  · rintro ⟨hone, hi, homega⟩
    exact (mapsTo_iff g).2 (evenSums_of_images hone hi homega)
  · intro h
    exact ⟨h ⟨1, rfl⟩, h ⟨CycloInt.imaginaryUnit, rfl⟩, h ⟨CycloInt.omega, rfl⟩⟩

/-! ### Products, conjugates, inverses and shifts -/

theorem isGridOp_identity : IsGridOp (identity : PlaneOp ℕ) := ⟨.inl (by decide), (preservesLattice_iff _).1 (by decide)⟩

theorem value_det_of_values {g : PlaneOp ℕ} {a b c d : ℂ} (h : g.values = ⟨a, b, c, d⟩) : g.det.value = a * d - b * c := by
  obtain ⟨rfl, rfl, rfl, rfl⟩ := Square.mk.inj h
  exact value_det g

theorem value_det_compose (g h : PlaneOp ℕ) : (g.compose h).det.value = g.det.value * h.det.value := by
  rw [value_det_of_values (values_compose g h), value_det, value_det]
  simp only [values, Square.map]
  ring

theorem IsGridOp.value_det {g : PlaneOp ℕ} (h : IsGridOp g) : g.det.value = 1 ∨ g.det.value = -1 :=
  h.det.imp (det_eq_one_iff g).1 (det_eq_neg_one_iff g).1

theorem isGridOp_of_value_det {g : PlaneOp ℕ} (hdet : g.det.value = 1 ∨ g.det.value = -1)
    (hmaps : Set.MapsTo g.apply lattice lattice) : IsGridOp g :=
  ⟨hdet.imp (det_eq_one_iff g).2 (det_eq_neg_one_iff g).2, hmaps⟩

theorem IsGridOp.compose {g h : PlaneOp ℕ} (hg : IsGridOp g) (hh : IsGridOp h) : IsGridOp (g.compose h) := by
  refine isGridOp_of_value_det ?_ fun p hp => ?_
  · rw [value_det_compose]
    rcases hg.value_det with h₁ | h₁ <;> rcases hh.value_det with h₂ | h₂ <;> simp [h₁, h₂]
  · rw [apply_compose]
    exact hg.maps (hh.maps hp)

theorem value_det_bullet (g : PlaneOp ℕ) : g.bullet.det.value = g.det.bullet.value := by
  simp [det, bullet, Square.map]

theorem IsGridOp.bullet {g : PlaneOp ℕ} (hg : IsGridOp g) : IsGridOp g.bullet := by
  refine isGridOp_of_value_det ?_ ?_
  · have hone : (1 : QuadFrac ℕ).bullet.value = 1 := RootFrac.value_one
    rw [value_det_bullet]
    refine hg.det.imp (fun h => by rw [h, hone]) fun h => by rw [h, RootFrac.value_bullet_neg, hone]
  · obtain ⟨n, hn, hpar⟩ := (mapsTo_iff g).1 hg.maps
    obtain ⟨⟨h₀₀, h₀₁⟩, h₁₀, h₁₁⟩ := (values_eq_overRoot_iff g n).1 hn
    have hbullet {x : QuadFrac ℕ} {r : QuadInt} (h : x.value = (⟨r, 1⟩ : QuadFrac ℕ).value) :
        x.bullet.value = (⟨-r.bullet, 1⟩ : QuadFrac ℕ).value := by
      rw [← bullet_over_root, RootFrac.value_bullet_congr h]
    refine mapsTo_of_evenSums (n := ⟨-n.m₀₀.bullet, -n.m₀₁.bullet, -n.m₁₀.bullet, -n.m₁₁.bullet⟩)
      ((values_eq_overRoot_iff _ _).2 ⟨⟨hbullet h₀₀, hbullet h₀₁⟩, hbullet h₁₀, hbullet h₁₁⟩) ?_
    constructor <;> simp only [QuadInt.neg_a, QuadInt.neg_b, QuadInt.bullet_a, QuadInt.bullet_b, neg_neg,
      ← neg_add, even_neg]
    exacts [hpar.left, hpar.right, hpar.top, hpar.all]

theorem value_numerator_scale (r : QuadInt) (e : ℤ) :
    (⟨r * (e : QuadInt), 1⟩ : QuadFrac ℕ).value = e * (⟨r, 1⟩ : QuadFrac ℕ).value := by
  rw [value_over_root, value_over_root, NumberRing.value_mul, QuadInt.value_eq (e : QuadInt), map_intCast]
  push_cast
  ring

/-- The inverse is the adjugate times the determinant. -/
theorem inverse_eq {g : PlaneOp ℕ} (hdet : g.det = 1 ∨ g.det = -1) : ∃ (inv : PlaneOp ℕ) (e : ℤ), g.inverse = .ok inv ∧
    (e = 1 ∨ e = -1) ∧ g.det.value = e ∧
      inv.values = ⟨e * g.m₁₁.value, -(e * g.m₀₁.value), -(e * g.m₁₀.value), e * g.m₀₀.value⟩ := by
  rcases hdet with hdet | hdet
  · refine ⟨⟨g.m₁₁, -g.m₀₁, -g.m₁₀, g.m₀₀⟩, 1, ?_, .inl rfl, ?_, ?_⟩
    · rw [inverse, hdet]
      rfl
    · rw [(det_eq_one_iff g).1 hdet, Int.cast_one]
    · simp [values, Square.map]
  · refine ⟨⟨-g.m₁₁, g.m₀₁, g.m₁₀, -g.m₀₀⟩, -1, ?_, .inr rfl, ?_, ?_⟩
    · rw [inverse, hdet]
      rfl
    · rw [(det_eq_neg_one_iff g).1 hdet, Int.cast_neg, Int.cast_one]
    · simp [values, Square.map]

/-- A grid operator has an inverse, which is a grid operator. -/
theorem IsGridOp.inverse {g : PlaneOp ℕ} (hg : IsGridOp g) : ∃ inv, g.inverse = .ok inv ∧ IsGridOp inv ∧
    (∀ p, inv.apply (g.apply p) = p.reduce) ∧ ∀ p, g.apply (inv.apply p) = p.reduce := by
  obtain ⟨inv, e, hok, he, hdet, hvalues⟩ := inverse_eq hg.det
  obtain ⟨h₀₀, h₀₁, h₁₀, h₁₁⟩ := Square.mk.inj hvalues
  have hsq : (e : ℂ) * e = 1 := by rcases he with rfl | rfl <;> norm_num
  have hdet' := hdet
  rw [PlaneOp.value_det] at hdet'
  refine ⟨inv, hok, isGridOp_of_value_det ?_ ?_, fun p => ?_, fun p => ?_⟩
  · have hsame : inv.det.value = g.det.value := by
      rw [value_det_of_values hvalues, PlaneOp.value_det]
      linear_combination (g.m₀₀.value * g.m₁₁.value - g.m₀₁.value * g.m₁₀.value) * hsq
    rw [hsame]
    exact hg.value_det
  · obtain ⟨n, hn, hpar⟩ := (mapsTo_iff g).1 hg.maps
    obtain ⟨⟨k₀₀, k₀₁⟩, k₁₀, k₁₁⟩ := (values_eq_overRoot_iff g n).1 hn
    refine mapsTo_of_evenSums (n := ⟨n.m₁₁ * (e : QuadInt), -(n.m₀₁ * (e : QuadInt)), -(n.m₁₀ * (e : QuadInt)),
      n.m₀₀ * (e : QuadInt)⟩) ((values_eq_overRoot_iff _ _).2 ⟨⟨?_, ?_⟩, ?_, ?_⟩) ?_
    · rw [h₀₀, k₁₁, value_numerator_scale]
    · rw [h₀₁, k₀₁, ← neg_over_root, RootFrac.value_neg, value_numerator_scale]
    · rw [h₁₀, k₁₀, ← neg_over_root, RootFrac.value_neg, value_numerator_scale]
    · rw [h₁₁, k₀₀, value_numerator_scale]
    · have hodd : ¬Even e := by rcases he with rfl | rfl <;> decide
      have hbottom := hpar.bottom
      obtain ⟨hleft, hright, htop, hall⟩ := hpar
      constructor <;> simp only [QuadInt.neg_a, QuadInt.neg_b, QuadInt.mul_a, QuadInt.mul_b, QuadInt.intCast_a,
        QuadInt.intCast_b, mul_zero, add_zero, zero_add, Int.even_add, Int.even_mul, even_neg, hodd, or_false] at *
      exacts [hbottom.symm, htop.symm, hright.symm, by grind]
  · rw [← reduce_apply, RootFrac.reduce_eq_iff, value_apply, (value_parts_apply g p).1, (value_parts_apply g p).2,
      h₀₀, h₀₁, h₁₀, h₁₁, value_eq_parts p]
    linear_combination ((re p).value + (im p).value * Complex.I) * (e * hdet' + hsq)
  · rw [← reduce_apply, RootFrac.reduce_eq_iff, value_apply, (value_parts_apply inv p).1, (value_parts_apply inv p).2,
      h₀₀, h₀₁, h₁₀, h₁₁, value_eq_parts p]
    linear_combination ((re p).value + (im p).value * Complex.I) * (e * hdet' + hsq)

/-- A grid operator takes `ℤ[ω]` onto itself. -/
theorem IsGridOp.onto {g : PlaneOp ℕ} (hg : IsGridOp g) : Onto g := by
  obtain ⟨inv, _, hinv, _, hright⟩ := hg.inverse
  refine Set.Subset.antisymm (Set.image_subset_iff.2 hg.maps) ?_
  rintro _ ⟨v, rfl⟩
  exact ⟨_, hinv.maps ⟨v, rfl⟩, by rw [hright, RootFrac.reduce_ofRing]⟩

theorem lambdaPow_parity (k : ℤ) :
    Odd (QuadInt.lambdaPow k).a ∧ (Even (QuadInt.lambdaPow k).b ↔ Even k) := by
  rw [UnitLog.lambdaPow_eq]
  have hval : (UnitLog.lambdaUnit : QuadInt) = ⟨1, 1⟩ := rfl
  have hinv : ((UnitLog.lambdaUnit⁻¹ : QuadIntˣ) : QuadInt) = ⟨-1, 1⟩ := rfl
  induction k using Int.induction_on with
  | zero => simp
  | succ n ih =>
    rw [zpow_add_one, Units.val_mul, hval, QuadInt.mul_a, QuadInt.mul_b]
    generalize ((UnitLog.lambdaUnit ^ (n : ℤ) : QuadIntˣ) : QuadInt) = x at ih
    obtain ⟨hodd, hiff⟩ := ih
    rw [← Int.not_even_iff_odd] at hodd ⊢
    simp only [mul_one, Int.even_add, Int.even_mul, even_two, true_or, hodd, hiff, Int.not_even_one]
    tauto
  | pred n ih =>
    rw [zpow_sub_one, Units.val_mul, hinv, QuadInt.mul_a, QuadInt.mul_b]
    generalize ((UnitLog.lambdaUnit ^ (-(n : ℤ)) : QuadIntˣ) : QuadInt) = x at ih
    obtain ⟨hodd, hiff⟩ := ih
    rw [← Int.not_even_iff_odd] at hodd ⊢
    simp only [mul_one, mul_neg, even_neg, Int.even_add, Int.even_sub, Int.even_mul, even_two, true_or, hodd, hiff,
      Int.not_even_one]
    tauto

theorem value_scale (x : QuadFrac ℕ) (r : QuadInt) : (x.scale r).value = x.value * NumberRing.value r := by
  rw [RootFrac.scale, RootFrac.value_mk, NumberRing.value_mul, RootFrac.value]
  ring

theorem value_scale_over_root {x : QuadFrac ℕ} {r : QuadInt} (s : QuadInt) (h : x.value = (⟨r, 1⟩ : QuadFrac ℕ).value) :
    (x.scale s).value = (⟨r * s, 1⟩ : QuadFrac ℕ).value := by
  rw [value_scale, h, value_over_root, value_over_root, NumberRing.value_mul, div_mul_eq_mul_div]

/-- A shift keeps `ℤ[ω]` where it is. -/
theorem mapsTo_shifted {g : PlaneOp ℕ} (hmaps : Set.MapsTo g.apply lattice lattice) (k : ℤ) :
    Set.MapsTo (g.shifted k).apply lattice lattice := by
  obtain ⟨n, hn, hpar⟩ := (mapsTo_iff g).1 hmaps
  obtain ⟨⟨h₀₀, h₀₁⟩, h₁₀, h₁₁⟩ := (values_eq_overRoot_iff g n).1 hn
  refine mapsTo_of_evenSums
    (n := { n with m₀₁ := n.m₀₁ * QuadInt.lambdaPow k, m₁₀ := n.m₁₀ * QuadInt.lambdaPow (-k) })
    ((values_eq_overRoot_iff _ _).2 ⟨⟨h₀₀, value_scale_over_root _ h₀₁⟩, value_scale_over_root _ h₁₀, h₁₁⟩) ?_
  obtain ⟨hodd, hiff⟩ := lambdaPow_parity k
  obtain ⟨hodd', hiff'⟩ := lambdaPow_parity (-k)
  obtain ⟨hleft, hright, htop, hall⟩ := hpar
  rw [even_neg] at hiff'
  rw [← Int.not_even_iff_odd] at hodd hodd'
  simp only [Int.even_add] at hleft hright htop hall
  constructor <;> simp only [QuadInt.mul_a, QuadInt.mul_b, Int.even_add, Int.even_mul, even_two, true_or, hodd, hodd',
    hiff, hiff', or_false, iff_true]
  · exact hleft
  · exact hright
  · exact htop
  · -- the two off-diagonal coefficients of `√2` change by the same parity
    rw [← hleft, htop]
    by_cases h : Even n.m₀₁.a ∨ Even k
    · simpa only [h, true_iff] using hall
    · simp only [h, false_iff]
      grind

end PlaneOp

end CliffordT

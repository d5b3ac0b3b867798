import CliffordT.Proofs.Plane.Operator
import CliffordT.Proofs.Ring.Automorphism
import CliffordT.Proofs.Ring.Unbounded

/-!
Linear maps with stored exponents beside linear maps with exponents of any size.

Products, determinants and images of points are the same in both, as long as the sums of exponents that are formed on the way
can be stored. Conjugation and shifts do not change exponents. On `ℤ[ω]` a stored map acts as a map with
exponents of any size in any case, although not always as the one with the same entries.
-/

namespace CliffordT

open Exponent

namespace PlaneOp

variable {E : Type} [Exponent E]

/-- The same map, with exponents of any size. -/
def unbounded (g : PlaneOp E) : PlaneOp ℕ := Square.map RootFrac.unbounded g

/-- The largest exponent of the entries, as it is stored. -/
def depth (g : PlaneOp E) : ℕ :=
  max (max (load g.m₀₀.exp) (load g.m₀₁.exp)) (max (load g.m₁₀.exp) (load g.m₁₁.exp))

/-- No entry has a larger exponent. -/
structure DepthAtMost (g : PlaneOp E) (n : ℕ) : Prop where
  m₀₀ : load g.m₀₀.exp ≤ n
  m₀₁ : load g.m₀₁.exp ≤ n
  m₁₀ : load g.m₁₀.exp ≤ n
  m₁₁ : load g.m₁₁.exp ≤ n

theorem depth_le_iff {g : PlaneOp E} {n : ℕ} : g.depth ≤ n ↔ g.DepthAtMost n := by
  rw [depth, max_le_iff, max_le_iff, max_le_iff]
  exact ⟨fun ⟨⟨h₀₀, h₀₁⟩, h₁₀, h₁₁⟩ => ⟨h₀₀, h₀₁, h₁₀, h₁₁⟩, fun h => ⟨⟨h.m₀₀, h.m₀₁⟩, h.m₁₀, h.m₁₁⟩⟩

theorem depthAtMost (g : PlaneOp E) : g.DepthAtMost g.depth := depth_le_iff.1 le_rfl

theorem depth_unbounded (g : PlaneOp E) : g.unbounded.depth = g.depth := rfl

theorem unbounded_bullet (g : PlaneOp E) : g.bullet.unbounded = g.unbounded.bullet := rfl

theorem unbounded_shifted (g : PlaneOp E) (k : ℤ) : (g.shifted k).unbounded = g.unbounded.shifted k := rfl

theorem unbounded_identity : (identity : PlaneOp E).unbounded = identity := by
  rw [unbounded, identity, Square.map, RootFrac.unbounded_one, RootFrac.unbounded_zero, identity]

theorem bullet_identity : (identity : PlaneOp E).bullet = identity := by
  rw [bullet, identity, Square.map, QuadFrac.bullet_one, QuadFrac.bullet_zero]

theorem depth_identity : (identity : PlaneOp E).depth = 0 := by
  rw [← depth_unbounded, unbounded_identity]
  rfl

theorem same_iff (g h : PlaneOp E) : g.same h = true ↔ g.values = h.values := by
  simp only [same, Bool.and_eq_true, RootFrac.same_iff, values, Square.map, Square.mk.injEq, and_assoc]

/-! ### Products -/

/-- A sum of two products, if the exponents of both can be stored. -/
theorem unbounded_dot {n : ℕ} (hE : Stores E n) {a b c d : QuadFrac E} (hab : load a.exp + load b.exp ≤ n)
    (hcd : load c.exp + load d.exp ≤ n) :
    (a * b + c * d).unbounded = a.unbounded * b.unbounded + c.unbounded * d.unbounded := by
  have := hE.of_le hab
  have := hE.of_le hcd
  rw [RootFrac.unbounded_add, RootFrac.unbounded_mul, RootFrac.unbounded_mul]

theorem exp_mul_le (x y : QuadFrac E) : load (x * y).exp ≤ load x.exp + load y.exp := load_store_le _

theorem exp_dot_le {n : ℕ} {a b c d : QuadFrac E} (hab : load a.exp + load b.exp ≤ n) (hcd : load c.exp + load d.exp ≤ n) :
    load (a * b + c * d).reduce.exp ≤ n := by
  refine (RootFrac.load_reduce_le _).trans ?_
  rw [RootFrac.exp_add]
  exact max_le ((exp_mul_le _ _).trans hab) ((exp_mul_le _ _).trans hcd)

theorem unbounded_compose {g h : PlaneOp E} (hE : Stores E (g.depth + h.depth)) :
    (g.compose h).unbounded = g.unbounded.compose h.unbounded := by
  have hg := g.depthAtMost
  have hh := h.depthAtMost
  have hentry {a b c d : QuadFrac E} (ha : load a.exp ≤ g.depth) (hb : load b.exp ≤ h.depth) (hc : load c.exp ≤ g.depth)
      (hd : load d.exp ≤ h.depth) : (a * b + c * d).reduce.unbounded =
        (a.unbounded * b.unbounded + c.unbounded * d.unbounded).reduce := by
    rw [RootFrac.unbounded_reduce, unbounded_dot hE (add_le_add ha hb) (add_le_add hc hd)]
  exact congr (congr (congr (congrArg Square.mk (hentry hg.m₀₀ hh.m₀₀ hg.m₀₁ hh.m₁₀)) (hentry hg.m₀₀ hh.m₀₁ hg.m₀₁ hh.m₁₁))
    (hentry hg.m₁₀ hh.m₀₀ hg.m₁₁ hh.m₁₀)) (hentry hg.m₁₀ hh.m₀₁ hg.m₁₁ hh.m₁₁)

theorem depth_compose_le (g h : PlaneOp E) : (g.compose h).depth ≤ g.depth + h.depth := by
  have hg := g.depthAtMost
  have hh := h.depthAtMost
  exact depth_le_iff.2
    ⟨exp_dot_le (add_le_add hg.m₀₀ hh.m₀₀) (add_le_add hg.m₀₁ hh.m₁₀),
      exp_dot_le (add_le_add hg.m₀₀ hh.m₀₁) (add_le_add hg.m₀₁ hh.m₁₁),
      exp_dot_le (add_le_add hg.m₁₀ hh.m₀₀) (add_le_add hg.m₁₁ hh.m₁₀),
      exp_dot_le (add_le_add hg.m₁₀ hh.m₀₁) (add_le_add hg.m₁₁ hh.m₁₁)⟩

/-- Conjugation is multiplicative, also where exponents cannot be stored. -/
theorem bullet_compose (g h : PlaneOp E) : (g.compose h).bullet = g.bullet.compose h.bullet := by
  have hentry (a b c d : QuadFrac E) :
      (a * b + c * d).reduce.bullet = (a.bullet * b.bullet + c.bullet * d.bullet).reduce := by
    rw [RootFrac.bullet_reduce, RootFrac.bullet_add, RootFrac.bullet_mul, RootFrac.bullet_mul]
  rw [bullet, compose, Square.map, Square.map, compose, Square.map, Square.mk.injEq]
  exact ⟨hentry _ _ _ _, hentry _ _ _ _, hentry _ _ _ _, hentry _ _ _ _⟩

/-! ### Determinants and inverses -/

theorem unbounded_det {g : PlaneOp E} (hE : Stores E (2 * g.depth)) : g.det.unbounded = g.unbounded.det := by
  have hg := g.depthAtMost
  have : Stores E (load g.m₀₀.exp + load g.m₁₁.exp) := hE.of_le (by have := hg.m₀₀; have := hg.m₁₁; omega)
  have : Stores E (load g.m₀₁.exp + load g.m₁₀.exp) := hE.of_le (by have := hg.m₀₁; have := hg.m₁₀; omega)
  rw [det, RootFrac.unbounded_reduce, RootFrac.unbounded_sub, RootFrac.unbounded_mul, RootFrac.unbounded_mul]
  rfl

theorem exp_det_le (g : PlaneOp E) : load g.det.exp ≤ 2 * g.depth := by
  have hg := g.depthAtMost
  have h₀ := exp_mul_le g.m₀₀ g.m₁₁
  have h₁ := exp_mul_le g.m₀₁ g.m₁₀
  have := hg.m₀₀
  have := hg.m₁₁
  have := hg.m₀₁
  have := hg.m₁₀
  refine (RootFrac.load_reduce_le _).trans ?_
  rw [RootFrac.exp_sub]
  omega

/-- A shift multiplies one factor of a product by what it divides the other by, so the determinant stays as it is stored. -/
theorem det_shifted (g : PlaneOp E) (k : ℤ) : (g.shifted k).det = g.det := by
  have hunit := UnitLog.lambdaPow_mul_neg k
  have hnum : (g.m₀₁.num * QuadInt.lambdaPow k) * (g.m₁₀.num * QuadInt.lambdaPow (-k)) = g.m₀₁.num * g.m₁₀.num := by
    calc (g.m₀₁.num * QuadInt.lambdaPow k) * (g.m₁₀.num * QuadInt.lambdaPow (-k))
        = (g.m₀₁.num * g.m₁₀.num) * (QuadInt.lambdaPow k * QuadInt.lambdaPow (-k)) := mul_mul_mul_comm _ _ _ _
      _ = g.m₀₁.num * g.m₁₀.num := by rw [hunit, mul_one]
  have hproduct : g.m₀₁.scale (QuadInt.lambdaPow k) * g.m₁₀.scale (QuadInt.lambdaPow (-k)) = g.m₀₁ * g.m₁₀ :=
    congrArg (RootFrac.mk · _) hnum
  rw [det, det, shifted, hproduct]

/-- A map has an inverse where its determinant is one or minus one, and the inverse is made of the same entries. -/
theorem inverse_unbounded {g : PlaneOp E} (hE : Stores E (2 * g.depth)) {inv : PlaneOp E} (h : g.inverse = .ok inv) :
    g.unbounded.inverse = .ok inv.unbounded := by
  have hone : g.unbounded.det.same 1 = g.det.same 1 := by
    rw [← unbounded_det hE, ← RootFrac.unbounded_one (E := E), RootFrac.same_unbounded]
  have hneg : g.unbounded.det.same (-1) = g.det.same (-1) := by
    rw [← unbounded_det hE, ← RootFrac.unbounded_one (E := E), ← RootFrac.unbounded_neg, RootFrac.same_unbounded]
  rw [inverse] at h ⊢
  rw [hone, hneg]
  split_ifs at h ⊢
  · cases h
    rfl
  · cases h
    rfl

/-! ### Images of points -/

theorem load_next_le (e : E) : load (next e) ≤ load e + 1 := load_store_le _

theorem unbounded_apply {g : PlaneOp E} {p : CycloFrac E} (hE : Stores E (g.depth + (load p.exp + 1))) :
    (g.apply p).unbounded = g.unbounded.apply p.unbounded := by
  have hg := g.depthAtMost
  have hnext := load_next_le p.exp
  have : Stores E (load p.exp + 1) := hE.of_le (Nat.le_add_left _ _)
  have hrow {a b : QuadFrac E} (ha : load a.exp ≤ g.depth) (hb : load b.exp ≤ g.depth) :
      (a * CycloFrac.re p + b * CycloFrac.im p).reduce.unbounded =
        (a.unbounded * CycloFrac.re p.unbounded + b.unbounded * CycloFrac.im p.unbounded).reduce := by
    rw [RootFrac.unbounded_reduce, unbounded_dot hE (add_le_add ha hnext) (add_le_add hb hnext), CycloFrac.unbounded_re,
      CycloFrac.unbounded_im]
  rw [apply, RootFrac.unbounded_reduce, CycloFrac.unbounded_ofParts, hrow hg.m₀₀ hg.m₀₁, hrow hg.m₁₀ hg.m₁₁]
  rfl

theorem exp_apply_le (g : PlaneOp E) (p : CycloFrac E) : load (g.apply p).exp ≤ g.depth + (load p.exp + 1) := by
  have hg := g.depthAtMost
  have hnext := load_next_le p.exp
  refine (RootFrac.load_reduce_le _).trans ?_
  rw [CycloFrac.exp_ofParts]
  exact max_le (exp_dot_le (add_le_add hg.m₀₀ hnext) (add_le_add hg.m₀₁ hnext))
    (exp_dot_le (add_le_add hg.m₁₀ hnext) (add_le_add hg.m₁₁ hnext))

/-- Conjugation goes through images, also where exponents cannot be stored. -/
theorem bullet_apply (g : PlaneOp E) (p : CycloFrac E) : (g.apply p).bullet = g.bullet.apply p.bullet := by
  rw [apply, apply, RootFrac.bullet_reduce, CycloFrac.ofParts_bullet, CycloFrac.re_bullet, CycloFrac.im_bullet]
  simp only [RootFrac.bullet_reduce, RootFrac.bullet_add, RootFrac.bullet_mul]
  rfl

/-! ### Images of points of `ℤ[ω]` -/

/-- The map by which a stored map acts on `ℤ[ω]`: the exponents are those that are stored for a product with a coordinate. -/
def latticeOp (g : PlaneOp E) : PlaneOp ℕ := Square.map (fun x => ⟨x.num.timesRoot, load (next x.exp)⟩) g

theorem value_latticeOp_entry (x : QuadFrac E) (r : QuadInt) :
    (x * (⟨r, next zero⟩ : QuadFrac E)).value = (⟨x.num.timesRoot, load (next x.exp)⟩ : QuadFrac ℕ).value * (⟨r, 1⟩ : QuadFrac ℕ).value := by
  have hroot := NumberRing.value_timesRoot x.num
  rw [show RootTwoRing.timesRoot x.num = x.num.timesRoot from rfl] at hroot
  change (⟨x.num * r, store (load x.exp + load (next zero : E))⟩ : QuadFrac E).value = _
  rw [load_next_zero, RootFrac.value_mk, RootFrac.value_mk, value_over_root, hroot, NumberRing.value_mul, load_nat, ← next]
  field_simp

theorem value_apply_ofRing (g : PlaneOp E) (u : CycloInt) :
    (g.apply (RootFrac.ofRing u)).value = (g.latticeOp.apply (RootFrac.ofRing u)).value := by
  have hrow (a b : QuadFrac E) (r s : QuadInt) :
      (a * (⟨r, next zero⟩ : QuadFrac E) + b * (⟨s, next zero⟩ : QuadFrac E)).reduce.value =
        (⟨a.num.timesRoot, load (next a.exp)⟩ : QuadFrac ℕ).value * (⟨r, 1⟩ : QuadFrac ℕ).value +
          (⟨b.num.timesRoot, load (next b.exp)⟩ : QuadFrac ℕ).value * (⟨s, 1⟩ : QuadFrac ℕ).value := by
    rw [RootFrac.value_reduce, RootFrac.value_add, value_latticeOp_entry, value_latticeOp_entry]
  rw [value_apply, apply, RootFrac.value_reduce, CycloFrac.value_ofParts]
  exact congrArg₂ (fun x y : ℂ => x + y * Complex.I) (hrow _ _ _ _) (hrow _ _ _ _)

/-- A stored map takes `ℤ[ω]` to `ℤ[ω]`, or onto it, as the map does by which it acts there. -/
theorem apply_ofRing_eq_iff (g : PlaneOp E) (u v : CycloInt) :
    g.apply (RootFrac.ofRing u) = RootFrac.ofRing v ↔ g.latticeOp.apply (RootFrac.ofRing u) = RootFrac.ofRing v := by
  rw [← reduce_apply, RootFrac.reduce_eq_ofRing_iff, ← reduce_apply g.latticeOp, RootFrac.reduce_eq_ofRing_iff, value_apply_ofRing,
    RootFrac.value_ofRing, RootFrac.value_ofRing]

theorem mapsTo_lattice_iff_forall {g : PlaneOp E} :
    Set.MapsTo g.apply lattice lattice ↔ ∀ u, ∃ v, g.apply (RootFrac.ofRing u) = RootFrac.ofRing v := by
  constructor
  · intro h u
    obtain ⟨v, hv⟩ := h ⟨u, rfl⟩
    exact ⟨v, hv.symm⟩
  · rintro h _ ⟨u, rfl⟩
    obtain ⟨v, hv⟩ := h u
    exact ⟨v, hv.symm⟩

theorem onto_iff_forall {g : PlaneOp E} : Onto g ↔ (∀ u, ∃ v, g.apply (RootFrac.ofRing u) = RootFrac.ofRing v) ∧
    ∀ v, ∃ u, g.apply (RootFrac.ofRing u) = RootFrac.ofRing v := by
  rw [Onto, Set.Subset.antisymm_iff, ← Set.mapsTo_iff_image_subset, mapsTo_lattice_iff_forall]
  refine and_congr_right fun _ => ?_
  simp only [lattice, Set.subset_def, Set.forall_mem_range, Set.mem_image, Set.exists_range_iff]

theorem mapsTo_latticeOp_iff (g : PlaneOp E) :
    Set.MapsTo g.latticeOp.apply lattice lattice ↔ Set.MapsTo g.apply lattice lattice := by
  rw [mapsTo_lattice_iff_forall, mapsTo_lattice_iff_forall]
  exact forall_congr' fun u => exists_congr fun v => (apply_ofRing_eq_iff g u v).symm

theorem onto_latticeOp_iff (g : PlaneOp E) : Onto g.latticeOp ↔ Onto g := by
  rw [onto_iff_forall, onto_iff_forall]
  exact and_congr (forall_congr' fun u => exists_congr fun v => (apply_ofRing_eq_iff g u v).symm)
    (forall_congr' fun v => exists_congr fun u => (apply_ofRing_eq_iff g u v).symm)

/-- The three images that are looked at decide whether a stored map takes `ℤ[ω]` to `ℤ[ω]`. -/
theorem preservesLattice_iff_mapsTo (g : PlaneOp E) : g.preservesLattice = true ↔ Set.MapsTo g.apply lattice lattice := by
  have hmem (u : CycloInt) : g.apply (RootFrac.ofRing u) ∈ lattice ↔ g.latticeOp.apply (RootFrac.ofRing u) ∈ lattice :=
    exists_congr fun v => eq_comm.trans ((apply_ofRing_eq_iff g u v).trans eq_comm)
  rw [preservesLattice_eq_true_iff, ← mapsTo_latticeOp_iff, ← preservesLattice_iff, preservesLattice_eq_true_iff]
  exact and_congr (hmem 1) (and_congr (hmem CycloInt.imaginaryUnit) (hmem CycloInt.omega))

/-- Where one more than the exponents can be stored, this is the same map. -/
theorem values_latticeOp {g : PlaneOp E} (hE : Stores E (g.depth + 1)) : g.latticeOp.values = g.values := by
  have hg := g.depthAtMost
  have hentry {x : QuadFrac E} (hx : load x.exp ≤ g.depth) :
      (⟨x.num.timesRoot, load (next x.exp)⟩ : QuadFrac ℕ).value = x.value := by
    have := hE.of_le (Nat.succ_le_succ hx)
    have hroot := NumberRing.value_timesRoot x.num
    rw [show RootTwoRing.timesRoot x.num = x.num.timesRoot from rfl] at hroot
    rw [RootFrac.value_mk, hroot, load_nat, load_next, pow_succ, mul_div_mul_right _ _ sqrtTwo_ne_zero, RootFrac.value]
  exact congr (congr (congr (congrArg Square.mk (hentry hg.m₀₀)) (hentry hg.m₀₁)) (hentry hg.m₁₀)) (hentry hg.m₁₁)

theorem mapsTo_unbounded_iff {g : PlaneOp E} (hE : Stores E (g.depth + 1)) :
    Set.MapsTo g.unbounded.apply lattice lattice ↔ Set.MapsTo g.apply lattice lattice := by
  rw [← mapsTo_latticeOp_iff g]
  exact mapsTo_congr (values_latticeOp hE).symm

theorem onto_unbounded_iff {g : PlaneOp E} (hE : Stores E (g.depth + 1)) : Onto g.unbounded ↔ Onto g := by
  rw [← onto_latticeOp_iff g]
  exact onto_congr (values_latticeOp hE).symm

/-! ### Grid operators -/

/-- A shift of a grid operator is a grid operator of the same determinant. -/
theorem IsGridOp.shifted {g : PlaneOp E} (hg : IsGridOp g) (k : ℤ) :
    IsGridOp (g.shifted k) ∧ (g.shifted k).det = g.det := by
  have hvalues : (g.shifted k).latticeOp.values = (g.latticeOp.shifted k).values := by
    have hentry (x : QuadFrac E) (r : QuadInt) : (⟨(x.num * r).timesRoot, load (next x.exp)⟩ : QuadFrac ℕ).value =
        (RootFrac.scale ⟨x.num.timesRoot, load (next x.exp)⟩ r : QuadFrac ℕ).value := by
      rw [RootFrac.scale, QuadInt.timesRoot_eq, QuadInt.timesRoot_eq, mul_right_comm]
    rw [values, values, Square.map, Square.map, Square.mk.injEq]
    exact ⟨rfl, hentry _ _, hentry _ _, rfl⟩
  refine ⟨⟨by rw [det_shifted]; exact hg.det, ?_⟩, det_shifted g k⟩
  rw [← mapsTo_latticeOp_iff, mapsTo_congr hvalues]
  exact mapsTo_shifted ((mapsTo_latticeOp_iff g).2 hg.maps) k

theorem det_eq_one_unbounded_iff {g : PlaneOp E} (hE : Stores E (2 * g.depth)) :
    (g.unbounded.det = 1 ∨ g.unbounded.det = -1) ↔ (g.det = 1 ∨ g.det = -1) := by
  rw [← unbounded_det hE, ← RootFrac.unbounded_one (E := E), ← RootFrac.unbounded_neg, RootFrac.unbounded_injective.eq_iff,
    RootFrac.unbounded_injective.eq_iff]

theorem isGridOp_unbounded_iff {g : PlaneOp E} (hE : Stores E (2 * g.depth)) : IsGridOp g.unbounded ↔ IsGridOp g := by
  have hmaps := mapsTo_unbounded_iff hE.succ_of_double
  constructor
  · rintro ⟨hdet, h⟩
    exact ⟨(det_eq_one_unbounded_iff hE).1 hdet, hmaps.1 h⟩
  · rintro ⟨hdet, h⟩
    exact ⟨(det_eq_one_unbounded_iff hE).2 hdet, hmaps.2 h⟩

theorem det_bullet (g : PlaneOp E) : g.bullet.det = g.det.bullet := by
  rw [det, det, RootFrac.bullet_reduce, RootFrac.bullet_sub, RootFrac.bullet_mul, RootFrac.bullet_mul]
  rfl

theorem exists_inverse_iff (g : PlaneOp E) :
    (∃ inv, g.inverse = .ok inv) ↔ g.det.same 1 = true ∨ g.det.same (-1) = true := by
  rw [inverse]
  split_ifs with hone hneg
  · exact iff_of_true ⟨_, rfl⟩ (.inl hone)
  · exact iff_of_true ⟨_, rfl⟩ (.inr hneg)
  · refine iff_of_false ?_ (not_or.2 ⟨hone, hneg⟩)
    rintro ⟨inv, h⟩
    cases h

theorem IsGridOp.exists_inverse {g : PlaneOp E} (hg : IsGridOp g) : ∃ inv, g.inverse = .ok inv :=
  (exists_inverse_iff g).2 (hg.det.imp (fun h => (RootFrac.same_iff _ _).2 (congrArg _ h))
    fun h => (RootFrac.same_iff _ _).2 (congrArg _ h))

theorem exists_inverse_bullet {g inv : PlaneOp E} (h : g.inverse = .ok inv) : ∃ invb, g.bullet.inverse = .ok invb := by
  rw [exists_inverse_iff, det_bullet, RootFrac.same_iff, RootFrac.same_iff]
  refine ((exists_inverse_iff g).1 ⟨inv, h⟩).imp (fun hdet => ?_) fun hdet => ?_
  · rw [RootFrac.value_bullet_congr ((RootFrac.same_iff _ _).1 hdet), QuadFrac.bullet_one]
  · rw [RootFrac.value_bullet_congr ((RootFrac.same_iff _ _).1 hdet), RootFrac.bullet_neg, QuadFrac.bullet_one]

theorem depth_inverse {g inv : PlaneOp E} (h : g.inverse = .ok inv) : inv.depth = g.depth := by
  have hswap (a b c d : ℕ) : max (max d b) (max c a) = max (max a b) (max c d) := by omega
  rw [inverse] at h
  split_ifs at h
  all_goals
    cases h
    exact hswap _ _ _ _

/-! ### Small grid operators -/

/-- A grid operator whose entries are stored over `√2` at most. All maps of a reduction are of this kind, and it makes no difference
for them how exponents are stored. -/
structure IsSmallGridOp (g : PlaneOp E) : Prop where
  /-- The exponents of the entries. -/
  depth_le : g.depth ≤ 1
  /-- The map with exponents of any size. -/
  isGridOp_unbounded : IsGridOp g.unbounded

theorem isSmallGridOp_identity : IsSmallGridOp (identity : PlaneOp E) where
  depth_le := by
    rw [depth_identity]
    exact Nat.zero_le 1
  isGridOp_unbounded := by
    rw [unbounded_identity]
    exact isGridOp_identity

/-- An entry that is a numerator over `√2` is stored over `√2` once it is reduced. -/
theorem exp_reduce_le_one {x : QuadFrac ℕ} {r : QuadInt} (h : x.value = (⟨r, 1⟩ : QuadFrac ℕ).value) : x.reduce.exp ≤ 1 := by
  rw [RootFrac.reduce_congr h]
  exact RootFrac.load_reduce_le (⟨r, 1⟩ : QuadFrac ℕ)

namespace IsSmallGridOp

variable {g h : PlaneOp E}

theorem stores_two_mul_depth (hg : IsSmallGridOp g) : Stores E (2 * g.depth) :=
  .of_lt (by have := hg.depth_le; omega)

theorem isGridOp (hg : IsSmallGridOp g) : IsGridOp g := (isGridOp_unbounded_iff hg.stores_two_mul_depth).1 hg.isGridOp_unbounded

theorem onto (hg : IsSmallGridOp g) : Onto g :=
  (onto_unbounded_iff (.of_lt (by have := hg.depth_le; omega))).1 hg.isGridOp_unbounded.onto

theorem bullet (hg : IsSmallGridOp g) : IsSmallGridOp g.bullet := ⟨hg.depth_le, hg.isGridOp_unbounded.bullet⟩

theorem shifted (hg : IsSmallGridOp g) (k : ℤ) : IsSmallGridOp (g.shifted k) :=
  ⟨hg.depth_le, (hg.isGridOp_unbounded.shifted k).1⟩

theorem unbounded_compose (hg : IsSmallGridOp g) (hh : IsSmallGridOp h) :
    (g.compose h).unbounded = g.unbounded.compose h.unbounded :=
  PlaneOp.unbounded_compose (.of_lt (by have := hg.depth_le; have := hh.depth_le; omega))

/-- Products are reduced, so their entries do not grow beyond `√2`. -/
theorem compose (hg : IsSmallGridOp g) (hh : IsSmallGridOp h) : IsSmallGridOp (g.compose h) := by
  have hgrid := hg.isGridOp_unbounded.compose hh.isGridOp_unbounded
  rw [← hg.unbounded_compose hh] at hgrid
  refine ⟨?_, hgrid⟩
  obtain ⟨n, hn, -⟩ := (mapsTo_iff _).1 hgrid.maps
  obtain ⟨⟨h₀₀, h₀₁⟩, h₁₀, h₁₁⟩ := (values_eq_overRoot_iff _ n).1 hn
  have hentry {x : QuadFrac E} {r : QuadInt} (hx : x.reduce.unbounded.value = (⟨r, 1⟩ : QuadFrac ℕ).value) :
      load x.reduce.exp ≤ 1 := by
    have hle := exp_reduce_le_one hx
    rwa [← RootFrac.unbounded_reduce, RootFrac.reduce_reduce] at hle
  exact depth_le_iff.2 ⟨hentry h₀₀, hentry h₀₁, hentry h₁₀, hentry h₁₁⟩

/-- The inverse is a small grid operator too, and the same map with exponents of any size. -/
theorem inverse (hg : IsSmallGridOp g) :
    ∃ inv, g.inverse = .ok inv ∧ IsSmallGridOp inv ∧ g.unbounded.inverse = .ok inv.unbounded := by
  obtain ⟨inv, hinv⟩ := hg.isGridOp.exists_inverse
  have hunbounded := inverse_unbounded hg.stores_two_mul_depth hinv
  obtain ⟨inv', hinv', hgrid, -⟩ := hg.isGridOp_unbounded.inverse
  rw [hunbounded, Except.ok.injEq] at hinv'
  exact ⟨inv, hinv, ⟨(depth_inverse hinv).trans_le hg.depth_le, hinv' ▸ hgrid⟩, hunbounded⟩

end IsSmallGridOp

end PlaneOp

end CliffordT

import CliffordT.Proofs.Plane.Unbounded

/-!
A reduction of two ellipses goes through grid operators only.

Each round composes the map with a shifted elementary map. So the inverses that a round needs exist, whatever the
ellipses are and however many rounds there are. Since products are reduced, exponents stay at most one, and no matter how
exponents are stored, they are stored as they are.
-/

namespace CliffordT

open PlaneOp

theorem Elementary.isGridOp (h : Elementary) : IsGridOp (h.op : PlaneOp ℕ) := by
  -- the shears have a parameter; the other maps can be looked at
  have hunit : (⟨⟨0, 1⟩, 1⟩ : QuadFrac ℕ).value = 1 := (value_timesRoot_over_root 1).trans RootFrac.value_one
  have hzero : (⟨⟨0, 0⟩, 1⟩ : QuadFrac ℕ).value = 0 := (value_timesRoot_over_root 0).trans RootFrac.value_zero
  have hshear (x : QuadInt) (hx : Even x.a) : IsGridOp ⟨1, ⟨x, 0⟩, 0, 1⟩ := by
    refine isGridOp_of_value_det (.inl ?_) (mapsTo_of_evenSums (n := ⟨⟨0, 1⟩, x.timesRoot, ⟨0, 0⟩, ⟨0, 1⟩⟩)
      ((values_eq_overRoot_iff _ _).2 ⟨⟨?_, ?_⟩, ?_, ?_⟩) ?_)
    · simp [value_det]
    · rw [hunit, RootFrac.value_one]
    · exact (value_timesRoot_over_root x).symm
    · rw [hzero, RootFrac.value_zero]
    · rw [hunit, RootFrac.value_one]
    · constructor <;> simp [QuadInt.timesRoot, hx]
  have hfixed (g : PlaneOp ℕ) (hdet : g.det = 1 ∨ g.det = -1) (hmaps : g.preservesLattice = true) : IsGridOp g :=
    ⟨hdet, (preservesLattice_iff g).1 hmaps⟩
  cases h with
  | R => exact hfixed _ (by decide) (by decide)
  | K => exact hfixed _ (by decide) (by decide)
  | KBullet => exact hfixed _ (by decide) (by decide)
  | A n => exact hshear ⟨-2 * n, 0⟩ (by simp)
  | B n => exact hshear ⟨0, n⟩ (by simp)
  | X => exact hfixed _ (by decide) (by decide)
  | Z => exact hfixed _ (by decide) (by decide)

variable {E : Type} [Exponent E]

theorem Elementary.unbounded_op (h : Elementary) : (h.op : PlaneOp E).unbounded = h.op := by
  have hunit (r : QuadInt) : (⟨r, Exponent.store 1⟩ : QuadFrac E).unbounded = ⟨r, 1⟩ :=
    congrArg (RootFrac.mk r) Exponent.load_store
  cases h <;> simp [op, unbounded, Square.map, hunit]

theorem Elementary.isSmallGridOp (h : Elementary) : IsSmallGridOp (h.op : PlaneOp E) where
  depth_le := by
    rw [← depth_unbounded, h.unbounded_op]
    cases h <;> exact Nat.le_of_ble_eq_true rfl
  isGridOp_unbounded := by
    rw [h.unbounded_op]
    exact h.isGridOp

namespace PlaneOp

/-- The maps that are products of shifted elementary maps, multiplied in any order. -/
inductive Product : PlaneOp E → Prop
  /-- The empty product. -/
  | identity : Product identity
  /-- A single factor. -/
  | factor (h : Elementary) (k : ℤ) : Product (h.op.shifted k)
  /-- The product of two products. -/
  | compose {g h : PlaneOp E} : Product g → Product h → Product (g.compose h)

theorem Product.isSmallGridOp {g : PlaneOp E} (h : Product g) : IsSmallGridOp g := by
  induction h with
  | identity => exact isSmallGridOp_identity
  | factor h k => exact h.isSmallGridOp.shifted k
  | compose _ _ ihg ihh => exact ihg.compose ihh

end PlaneOp

theorem exists_of_bind_ok {α β : Type} {x : Except Failure α} {f : α → Except Failure β} {b : β} (h : x >>= f = .ok b) :
    ∃ a, x = .ok a ∧ f a = .ok b := by
  cases x with
  | error failure => cases h
  | ok a => exact ⟨a, rfl, h⟩

namespace UprightPair

/-- A computation whose result has a property, and whose failure is not that a map has no inverse. -/
def Safely {α : Type} (P : α → Prop) : Except Failure α → Prop
  | .ok a => P a
  | .error failure => ∀ shown, failure ≠ .broken (.noInverse shown)

theorem Safely.bind {α β : Type} {P : α → Prop} {Q : β → Prop} {x : Except Failure α} {f : α → Except Failure β}
    (hx : Safely P x) (hf : ∀ a, P a → Safely Q (f a)) : Safely Q (x >>= f) := by
  cases x with
  | error failure => exact hx
  | ok a => exact hf a hx

theorem Safely.map {α β : Type} {Q : β → Prop} {x : Except Failure α} {f : α → β} (hx : Safely (fun a => Q (f a)) x) :
    Safely Q (x.map f) := by
  cases x with
  | error failure => exact hx
  | ok a => exact hx

/-! ### The choice of a step -/

section Steps

variable {C : Type} [StepNumber C]

theorem shearExponent_safely (x : C) : Safely (fun _ => True) (Shape.shearExponent x) := by
  rw [Shape.shearExponent]
  split
  · trivial
  · intro shown h
    cases h

theorem stepFor_safely (z zeta : C) (negative : Bool) : Safely (fun _ => True) (Shape.stepFor z zeta negative) := by
  have hnone : Safely (fun _ : Elementary => True) (.error (.broken .noStep)) := fun shown h => by cases h
  rw [Shape.stepFor]
  split_ifs
  · trivial
  · exact (shearExponent_safely _).map
  · exact hnone
  · trivial
  · exact (shearExponent_safely _).map
  · trivial
  · exact hnone

theorem step?_safely (s t : Shape C) : Safely (fun _ => True) (Shape.step? s t) := by
  rw [Shape.step?]
  dsimp only
  generalize (if s.shiftFor t % 2 = 1 then t.sign.swap else t.sign) = betaSign
  split_ifs
  · trivial
  · trivial
  · trivial
  · exact (stepFor_safely _ _ _).map

end Steps

/-! ### Runs -/

variable {K : Type} [NumericScalar K]

/-- The inverses that a round needs exist. -/
theorem preimages_ok (a b : Ellipse K) {g : PlaneOp E} (hg : IsSmallGridOp g) : ∃ images, preimages a b g = .ok images := by
  obtain ⟨inv, hinv, -⟩ := hg.inverse
  obtain ⟨invb, hinvb, -⟩ := hg.bullet.inverse
  rw [preimages, hinv]
  simp only [bind, Except.bind, hinvb]
  exact ⟨_, rfl⟩

theorem preimages_safely (a b : Ellipse K) {g : PlaneOp E} (hg : IsSmallGridOp g) :
    Safely (fun _ => True) (preimages a b g) := by
  obtain ⟨images, himages⟩ := preimages_ok a b hg
  rw [himages]
  trivial

/-- Rounds that start from a product of shifted elementary maps end with one. -/
theorem reduceFrom_safely (a b : Ellipse K) {g : PlaneOp E} (hg : Product g) (left : ℕ) :
    Safely (fun r => Product r.1) (reduceFrom a b g left) := by
  induction left generalizing g with
  | zero =>
    intro shown h
    cases h
  | succ left ih =>
    refine (preimages_safely a b hg.isSmallGridOp).bind fun images _ => (step?_safely _ _).bind fun next _ => ?_
    cases next with
    | none => exact hg
    | some hk => exact ih (hg.compose (.factor hk.1 hk.2))

theorem quotient_safely (x y : K) : Safely (fun _ => True) (Scalar.quotient x y) := by
  rw [Scalar.quotient]
  split
  · intro shown h
    cases h
  · trivial

theorem normalized_safely (e : Ellipse K) : Safely (fun _ => True) e.normalized :=
  (quotient_safely _ _).bind fun _ _ => (quotient_safely _ _).bind fun _ _ => (quotient_safely _ _).bind fun _ _ => trivial

theorem box_safely (e : Ellipse K) : Safely (fun _ => True) e.box :=
  (quotient_safely _ _).bind fun _ _ => (quotient_safely _ _).bind fun _ _ => trivial

theorem ofEllipses_safely (a b : Ellipse K) :
    Safely (fun pair? : Option (UprightPair K E) => ∀ pair ∈ pair?, Product pair.op) (ofEllipses a b) := by
  rw [ofEllipses]
  split
  · exact fun pair h => absurd h (Option.not_mem_none pair)
  · refine (normalized_safely a).bind fun na _ => (normalized_safely b).bind fun nb _ =>
      (reduceFrom_safely na nb .identity _).bind fun r hr => (preimages_safely a b hr.isSmallGridOp).bind fun images _ =>
        (box_safely _).bind fun first _ => (box_safely _).bind fun second _ => ?_
    rintro pair ⟨⟩
    exact hr

/-- Products of shifted elementary maps have determinant one or minus one, and they, their conjugates and the inverses of
both map `ℤ[ω]` onto itself. A reduction goes through such maps only, for all ellipses and any number of rounds, so it
never fails for want of an inverse. A shift of any grid operator is a grid operator of the same determinant. All this is
independent of how exponents are stored. -/
theorem reduction_gridOps (E : Type) [Exponent E] :
    (∀ g : PlaneOp E, Product g → (g.det = 1 ∨ g.det = -1) ∧ Onto g ∧ Onto g.bullet ∧
      (∃ inv, g.inverse = .ok inv ∧ Onto inv) ∧ ∃ inv, g.bullet.inverse = .ok inv ∧ Onto inv) ∧
    (∀ (L : Type) [NumericScalar L] (a b : Ellipse L),
      (∀ g : PlaneOp E, Product g → ∃ images, preimages a b g = .ok images) ∧
      (∀ rounds, Safely (fun r : PlaneOp E × ℕ => Product r.1) (reduceFrom a b identity rounds)) ∧
      Safely (fun pair? : Option (UprightPair L E) => ∀ pair ∈ pair?, Product pair.op) (ofEllipses a b)) ∧
    ∀ (g : PlaneOp E) (k : ℤ), IsGridOp g → IsGridOp (g.shifted k) ∧ (g.shifted k).det = g.det := by
  refine ⟨fun g hg => ?_, fun L _ a b => ⟨fun g hg => ?_, fun rounds => ?_, ?_⟩, fun g k hg => hg.shifted k⟩
  · have hop := hg.isSmallGridOp
    obtain ⟨inv, hinv, hgrid, -⟩ := hop.inverse
    obtain ⟨invb, hinvb, hgridb, -⟩ := hop.bullet.inverse
    exact ⟨hop.isGridOp.det, hop.onto, hop.bullet.onto, ⟨inv, hinv, hgrid.onto⟩, invb, hinvb, hgridb.onto⟩
  · exact preimages_ok a b hg.isSmallGridOp
  · exact reduceFrom_safely a b .identity rounds
  · exact ofEllipses_safely a b

/-- The rotation shifted by three and followed by a shear shifted by minus one. -/
theorem reduction_gridOps_sheared :
    Onto (((Elementary.A 2).op.shifted (-1)).compose (Elementary.R.op.shifted 3) : PlaneOp UInt32) ∧
      IsGridOp ((Elementary.K.op.shifted 5).shifted (-2) : PlaneOp UInt32) := by
  obtain ⟨hproduct, -, hshift⟩ := reduction_gridOps UInt32
  exact ⟨(hproduct _ (.compose (.factor _ _) (.factor _ _))).2.1,
    (hshift _ _ (hshift _ _ Elementary.K.isSmallGridOp.isGridOp).1).1⟩

end UprightPair

end CliffordT

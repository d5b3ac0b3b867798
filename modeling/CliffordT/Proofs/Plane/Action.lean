import CliffordT.Proofs.Plane.Unbounded

/-!
Linear maps with entries in `𝔻[√2]` act on `𝔻[ω]`.

The image of a point is found through real and imaginary parts and is reduced on the way, but as a number it is the image under
the linear map with the entries' values. So products of maps act one after the other, and the inverse, where there is one, undoes
the action from both sides. With stored exponents this is so where the sums of exponents that are formed can be stored.
-/

namespace CliffordT

theorem Square.mk_mul_mk {K : Type} [Add K] [Mul K] (a b c d a' b' c' d' : K) : (⟨a, b, c, d⟩ * ⟨a', b', c', d'⟩ : Square K) =
    ⟨a * a' + b * c', a * b' + b * d', c * a' + d * c', c * b' + d * d'⟩ := rfl

namespace PlaneOp

open CycloFrac Exponent

/-! ### The action -/

theorem value_apply_identity (x : CycloFrac ℕ) : ((identity : PlaneOp ℕ).apply x).value = x.value := by
  rw [value_apply, value_eq_parts x]
  simp [identity]

theorem value_apply_of_values {g : PlaneOp ℕ} (h : g.values = (identity : PlaneOp ℕ).values) (x : CycloFrac ℕ) :
    (g.apply x).value = x.value := by
  rw [apply_congr h rfl, value_apply_identity]

theorem value_apply_add (g : PlaneOp ℕ) (x y : CycloFrac ℕ) : (g.apply (x + y)).value = (g.apply x).value + (g.apply y).value := by
  simp only [value_apply, value_re_eq, value_im_eq, RootFrac.value_add, Complex.add_re, Complex.add_im, Complex.ofReal_add]
  ring

theorem value_apply_smul (g : PlaneOp ℕ) (c : QuadFrac ℕ) (x : CycloFrac ℕ) :
    (g.apply (ofReal c * x)).value = c.value * (g.apply x).value := by
  simp only [value_apply, value_re_eq, value_im_eq, RootFrac.value_mul, value_ofReal, QuadFrac.value_eq_toReal c,
    Complex.re_ofReal_mul, Complex.im_ofReal_mul, Complex.ofReal_mul]
  ring

/-! ### Inverses -/

theorem det_eq_one_iff_same (g : PlaneOp ℕ) : g.det.same 1 = true ↔ g.det = 1 := by
  rw [RootFrac.same_iff, RootFrac.value_one, det_eq_one_iff]

theorem det_eq_neg_one_iff_same (g : PlaneOp ℕ) : g.det.same (-1) = true ↔ g.det = -1 := by
  rw [RootFrac.same_iff, RootFrac.value_neg, RootFrac.value_one, det_eq_neg_one_iff]

/-- The products of a map and its inverse are the identity. -/
theorem values_compose_inverse {g inv : PlaneOp ℕ} (h : g.inverse = .ok inv) :
    (inv.compose g).values = (identity : PlaneOp ℕ).values ∧ (g.compose inv).values = (identity : PlaneOp ℕ).values := by
  have hdet := ((exists_inverse_iff g).1 ⟨inv, h⟩).imp (det_eq_one_iff_same g).1 (det_eq_neg_one_iff_same g).1
  obtain ⟨_, e, hok, he, hvalue, hvalues⟩ := inverse_eq hdet
  rw [h] at hok
  cases hok
  have hsq : (e : ℂ) * e = 1 := by rcases he with rfl | rfl <;> norm_num
  rw [value_det] at hvalue
  -- both products have the square of the determinant on the diagonal, and zero beside it
  have hdiagonal : (e : ℂ) * (g.m₀₀.value * g.m₁₁.value - g.m₀₁.value * g.m₁₀.value) = 1 := by rw [hvalue, hsq]
  rw [values_compose, values_compose, hvalues]
  constructor
  all_goals
    simp only [values, Square.map, identity, RootFrac.value_zero, RootFrac.value_one, Square.mk_mul_mk, Square.mk.injEq]
    refine ⟨?_, ?_, ?_, ?_⟩
  · linear_combination hdiagonal
  · ring
  · ring
  · linear_combination hdiagonal
  · linear_combination hdiagonal
  · ring
  · ring
  · linear_combination hdiagonal

section Stored

variable {E : Type} [Exponent E]

theorem value_apply_identity_stored {p : CycloFrac E} (hE : Stores E (load p.exp + 1)) :
    ((identity : PlaneOp E).apply p).value = p.value := by
  rw [← RootFrac.value_unbounded, unbounded_apply (by rwa [depth_identity, Nat.zero_add]), unbounded_identity,
    value_apply_identity, RootFrac.value_unbounded]

theorem apply_compose_stored {g h : PlaneOp E} {p : CycloFrac E} (hE : Stores E (g.depth + h.depth + (load p.exp + 2))) :
    (g.compose h).apply p = g.apply (h.apply p) := by
  have hdepth := depth_compose_le g h
  have himage := exp_apply_le h p
  apply RootFrac.unbounded_injective
  rw [unbounded_apply (hE.of_le (by omega)), unbounded_compose (hE.of_le (by omega)), apply_compose,
    unbounded_apply (hE.of_le (by omega)), unbounded_apply (hE.of_le (by omega))]

theorem same_apply_add {g : PlaneOp E} {p q : CycloFrac E} (hE : Stores E (g.depth + (max (load p.exp) (load q.exp) + 1))) :
    (g.apply (p + q)).same (g.apply p + g.apply q) = true := by
  have hsum : load (p + q).exp = max (load p.exp) (load q.exp) := RootFrac.exp_add p q
  rw [← RootFrac.same_unbounded, RootFrac.unbounded_add, unbounded_apply (by rwa [hsum]), unbounded_apply (hE.of_le (by omega)),
    unbounded_apply (hE.of_le (by omega)), RootFrac.unbounded_add, RootFrac.same_iff, value_apply_add, RootFrac.value_add]

theorem same_apply_smul {g : PlaneOp E} {c : QuadFrac E} {p : CycloFrac E}
    (hE : Stores E (g.depth + load c.exp + (load p.exp + 1))) :
    (g.apply (ofReal c * p)).same (ofReal c * g.apply p) = true := by
  have himage := exp_apply_le g p
  have hexp : load (ofReal c).exp = load c.exp := rfl
  have : Stores E (load (ofReal c).exp + load p.exp) := hE.of_le (by omega)
  have : Stores E (load (ofReal c).exp + load (g.apply p).exp) := hE.of_le (by omega)
  have hproduct : load (ofReal c * p).exp = load c.exp + load p.exp := load_store
  rw [← RootFrac.same_unbounded, unbounded_apply (by rw [hproduct]; exact hE.of_le (by omega)), RootFrac.unbounded_mul,
    RootFrac.unbounded_mul, unbounded_apply (hE.of_le (by omega)), unbounded_ofReal, RootFrac.same_iff, value_apply_smul,
    RootFrac.value_mul, value_ofReal]

theorem same_det_compose {g h : PlaneOp E} (hE : Stores E (2 * (g.depth + h.depth))) :
    (g.compose h).det.same (g.det * h.det) = true := by
  have hdepth := depth_compose_le g h
  have hg := exp_det_le g
  have hh := exp_det_le h
  have : Stores E (load g.det.exp + load h.det.exp) := hE.of_le (by omega)
  rw [← RootFrac.same_unbounded, unbounded_det (hE.of_le (by omega)), unbounded_compose (hE.of_le (by omega)),
    RootFrac.unbounded_mul, unbounded_det (hE.of_le (by omega)), unbounded_det (hE.of_le (by omega)), RootFrac.same_iff,
    value_det_compose, RootFrac.value_mul]

/-- One map undoes the other from both sides, as a matrix and in its action on points. -/
structure IsInverse (g inv : PlaneOp E) : Prop where
  compose_left : (inv.compose g).same identity = true
  compose_right : (g.compose inv).same identity = true
  apply_left (p : CycloFrac E) (hp : Stores E (2 * g.depth + (load p.exp + 2))) : (inv.apply (g.apply p)).same p = true
  apply_right (p : CycloFrac E) (hp : Stores E (2 * g.depth + (load p.exp + 2))) : (g.apply (inv.apply p)).same p = true

theorem isInverse_of_inverse {g inv : PlaneOp E} (hE : Stores E (2 * g.depth)) (h : g.inverse = .ok inv) :
    IsInverse g inv := by
  have hdepth := depth_inverse h
  obtain ⟨hleft, hright⟩ := values_compose_inverse (inverse_unbounded hE h)
  rw [← unbounded_compose (hE.of_le (by omega)), ← unbounded_identity (E := E)] at hleft hright
  have hback {f : PlaneOp E} (hf : f.unbounded.values = (identity : PlaneOp E).unbounded.values) {p : CycloFrac E}
      (hp : Stores E (f.depth + (load p.exp + 1))) : (f.apply p).same p = true := by
    rw [unbounded_identity] at hf
    rw [← RootFrac.same_unbounded, unbounded_apply hp, RootFrac.same_iff, value_apply_of_values hf]
  have hleftDepth := depth_compose_le inv g
  have hrightDepth := depth_compose_le g inv
  refine ⟨(same_iff _ _).2 hleft, (same_iff _ _).2 hright, fun p hp => ?_, fun p hp => ?_⟩
  · rw [← apply_compose_stored (hp.of_le (by omega))]
    exact hback hleft (hp.of_le (by omega))
  · rw [← apply_compose_stored (hp.of_le (by omega))]
    exact hback hright (hp.of_le (by omega))

end Stored

/-- The laws of the linear maps that act on points. A law holds where the sums of exponents can be stored that are formed on its two
sides, and those for conjugation hold for all stored maps and points. -/
structure LinearAction (E : Type) [Exponent E] : Prop where
  /-- The identity leaves points where they are. -/
  identity (p : CycloFrac E) (hE : Stores E (load p.exp + 1)) : (identity.apply p).same p = true
  /-- Products act one after the other. -/
  compose (g h : PlaneOp E) (p : CycloFrac E) (hE : Stores E (g.depth + h.depth + (load p.exp + 2))) :
    (g.compose h).apply p = g.apply (h.apply p)
  /-- Sums of points. -/
  add (g : PlaneOp E) (p q : CycloFrac E) (hE : Stores E (g.depth + (max (load p.exp) (load q.exp) + 1))) :
    (g.apply (p + q)).same (g.apply p + g.apply q) = true
  /-- Multiples of points by numbers of `𝔻[√2]`. -/
  smul (g : PlaneOp E) (c : QuadFrac E) (p : CycloFrac E) (hE : Stores E (g.depth + load c.exp + (load p.exp + 1))) :
    (g.apply (ofReal c * p)).same (ofReal c * g.apply p) = true
  /-- Conjugates of images. -/
  bullet_apply (g : PlaneOp E) (p : CycloFrac E) : (g.apply p).bullet = g.bullet.apply p.bullet
  /-- Conjugates of products. -/
  bullet_compose (g h : PlaneOp E) : (g.compose h).bullet = g.bullet.compose h.bullet
  /-- Determinants of products. -/
  det_compose (g h : PlaneOp E) (hE : Stores E (2 * (g.depth + h.depth))) : (g.compose h).det.same (g.det * h.det) = true
  /-- There is an inverse exactly for determinant one and minus one. -/
  exists_inverse (g : PlaneOp E) : (∃ inv, g.inverse = .ok inv) ↔ g.det.same 1 = true ∨ g.det.same (-1) = true
  /-- The inverse is one from both sides. -/
  inverse (g inv : PlaneOp E) (hE : Stores E (2 * g.depth)) (h : g.inverse = .ok inv) : IsInverse g inv

/-- Linear maps with entries in `𝔻[√2]` act on `𝔻[ω]` linearly over `𝔻[√2]`: products act one after the other, conjugation and the
determinant are multiplicative, conjugation goes through the action, and there is an inverse exactly for determinant one and
minus one. With exponents of any size this holds for all maps and points. -/
theorem linear_action (E : Type) [Exponent E] : LinearAction E where
  identity _ hE := (RootFrac.same_iff _ _).2 (value_apply_identity_stored hE)
  compose _ _ _ := apply_compose_stored
  add _ _ _ := same_apply_add
  smul _ _ _ := same_apply_smul
  bullet_apply := bullet_apply
  bullet_compose := bullet_compose
  det_compose _ _ := same_det_compose
  exists_inverse := exists_inverse_iff
  inverse _ _ := isInverse_of_inverse

/-- The step `K` has determinant one. Its image of `i / √2^1000` is undone by the inverse. The parts of `1 / √2^(2^32 - 1)` have
an exponent that is no word, and the identity moves this point. -/
theorem linear_action_step :
    inverse (Elementary.op .K) = .ok (⟨⟨⟨1, 0⟩, 1⟩, ⟨⟨1, 0⟩, 1⟩, ⟨⟨-1, -1⟩, 1⟩, ⟨⟨1, -1⟩, 1⟩⟩ : PlaneOp UInt32) ∧
      (apply ⟨⟨⟨1, 0⟩, 1⟩, ⟨⟨1, 0⟩, 1⟩, ⟨⟨-1, -1⟩, 1⟩, ⟨⟨1, -1⟩, 1⟩⟩
        (apply (Elementary.op .K) ⟨CycloInt.imaginaryUnit, 1000⟩)).same (⟨CycloInt.imaginaryUnit, 1000⟩ : CycloFrac UInt32) = true ∧
      (identity.apply ⟨1, 4294967295⟩).same (⟨1, 4294967295⟩ : CycloFrac UInt32) = false := by
  have h : inverse (Elementary.op .K) = .ok (⟨⟨⟨1, 0⟩, 1⟩, ⟨⟨1, 0⟩, 1⟩, ⟨⟨-1, -1⟩, 1⟩, ⟨⟨1, -1⟩, 1⟩⟩ : PlaneOp UInt32) := rfl
  have hexp : (identity.apply (⟨1, 4294967295⟩ : CycloFrac UInt32)).reduce.exp ≠ (⟨1, 4294967295⟩ : CycloFrac UInt32).reduce.exp := by
    decide +kernel
  exact ⟨h, ((linear_action UInt32).inverse _ _ (.of_lt (by decide)) h).apply_left _ (.of_lt (by decide)),
    Bool.eq_false_iff.2 fun hsame => hexp (RootFrac.reduce_exp_congr ((RootFrac.same_iff _ _).1 hsame))⟩

/-! ### The lattice test -/

section Lattice

variable {E : Type} [Exponent E]

/-- A point whose value lies in `ℤ[ω]`, however it is written. -/
def IsIntegral (p : CycloFrac E) : Prop := ∃ u : CycloInt, p.same (RootFrac.ofRing u) = true

theorem isIntegral_ofRing (u : CycloInt) : IsIntegral (RootFrac.ofRing u : CycloFrac E) := ⟨u, (RootFrac.same_iff _ _).2 rfl⟩

theorem isIntegral_unbounded_iff (p : CycloFrac E) : IsIntegral p.unbounded ↔ IsIntegral p :=
  exists_congr fun u => by rw [← RootFrac.unbounded_ofRing (E := E), RootFrac.same_unbounded]

theorem isIntegral_apply_iff (g : PlaneOp E) (p : CycloFrac E) : IsIntegral (g.apply p) ↔ g.apply p ∈ lattice := by
  simp only [IsIntegral, RootFrac.same_iff, apply_mem_iff]

/-- A map that preserves `ℤ[ω]` does so for all ways in which a point is written, as far as the exponents can be stored. -/
theorem isIntegral_apply {g : PlaneOp E} (h : g.preservesLattice = true) {p : CycloFrac E}
    (hE : Stores E (g.depth + (load p.exp + 1))) (hp : IsIntegral p) : IsIntegral (g.apply p) := by
  obtain ⟨u, hu⟩ := hp
  rw [preservesLattice_iff_mapsTo, ← mapsTo_unbounded_iff (hE.of_le (by omega))] at h
  have hvalue : p.unbounded.value = (RootFrac.ofRing u : CycloFrac ℕ).value := by
    rw [RootFrac.value_unbounded, (RootFrac.same_iff _ _).1 hu, RootFrac.value_ofRing, RootFrac.value_ofRing]
  rw [← isIntegral_unbounded_iff, unbounded_apply hE, isIntegral_apply_iff, apply_congr rfl hvalue]
  exact h ⟨u, rfl⟩

/-- A map of determinant one or minus one that preserves `ℤ[ω]` is onto. -/
theorem exists_apply_same {g : PlaneOp E} (hE : Stores E (2 * g.depth)) (h : g.preservesLattice = true)
    (hdet : g.det.same 1 = true ∨ g.det.same (-1) = true) {q : CycloFrac E} (hq : IsIntegral q) :
    ∃ u : CycloInt, (g.apply (RootFrac.ofRing u)).same q = true := by
  obtain ⟨v, hv⟩ := hq
  have hunbounded : IsGridOp g.unbounded := by
    refine ⟨hdet.imp (fun hone => ?_) fun hone => ?_, ?_⟩
    · rwa [← RootFrac.same_unbounded, unbounded_det hE, RootFrac.unbounded_one, det_eq_one_iff_same] at hone
    · rwa [← RootFrac.same_unbounded, unbounded_det hE, RootFrac.unbounded_neg, RootFrac.unbounded_one,
        det_eq_neg_one_iff_same] at hone
    · exact (mapsTo_unbounded_iff hE.succ_of_double).2 ((preservesLattice_iff_mapsTo g).1 h)
  obtain ⟨u, hu⟩ := (onto_iff_forall.1 ((onto_unbounded_iff hE.succ_of_double).1 hunbounded.onto)).2 v
  refine ⟨u, ?_⟩
  rw [hu, RootFrac.same_iff]
  exact ((RootFrac.same_iff _ _).1 hv).symm

end Lattice

/-- The images of `1`, `i` and `ω` decide whether a map takes `ℤ[ω]` into itself. This holds for all stored maps. A map that does
takes the points of `ℤ[ω]` there however they are written, and if it has determinant one or minus one, it takes `ℤ[ω]` onto
itself, as far as the exponents on the way can be stored. -/
theorem preservesLattice_decides (E : Type) [Exponent E] :
    (∀ g : PlaneOp E, g.preservesLattice = true ↔ ∀ u : CycloInt, IsIntegral (g.apply (RootFrac.ofRing u))) ∧
    (∀ g : PlaneOp E, g.preservesLattice = true → ∀ p : CycloFrac E, Stores E (g.depth + (load p.exp + 1)) →
      IsIntegral p → IsIntegral (g.apply p)) ∧
    ∀ g : PlaneOp E, Stores E (2 * g.depth) → g.preservesLattice = true → g.det.same 1 = true ∨ g.det.same (-1) = true →
      ∀ q : CycloFrac E, IsIntegral q → ∃ u : CycloInt, (g.apply (RootFrac.ofRing u)).same q = true := by
  refine ⟨fun g => ?_, fun g hmaps p => isIntegral_apply hmaps, fun g hE hmaps hdet q => exists_apply_same hE hmaps hdet⟩
  rw [preservesLattice_iff_mapsTo, lattice, Set.mapsTo_range_iff]
  exact forall_congr' fun u => (isIntegral_apply_iff g _).symm

/-- A product of the step `K` and a shear is onto; stretching the second axis by `√2` goes wrong at `ω` only. -/
theorem preservesLattice_decides_shear :
    (∃ u : CycloInt, ((Elementary.K.op.compose (Elementary.B 3).op).apply (RootFrac.ofRing u)).same (omega : CycloFrac UInt32) = true) ∧
      ¬∀ u : CycloInt, IsIntegral (apply ⟨1, 0, 0, ⟨⟨0, 1⟩, 0⟩⟩ (RootFrac.ofRing u : CycloFrac UInt32)) := by
  obtain ⟨hiff, -, honto⟩ := preservesLattice_decides UInt32
  refine ⟨honto _ (.of_lt (by decide)) (by decide) (.inl (by decide)) omega (isIntegral_ofRing _), ?_⟩
  rw [← hiff]
  decide

end PlaneOp

end CliffordT

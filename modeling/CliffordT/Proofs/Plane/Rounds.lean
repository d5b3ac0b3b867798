import CliffordT.Proofs.Plane.Descent

/-!
The rounds of a reduction, without rounding.

A round either lowers the skew by a tenth or reflects. A reflection keeps the skew and lowers the rank of the pair, which is
at most three. So the skew falls below every bound, and a reduction ends.
-/

namespace CliffordT

open Exponent ExactReal
open scoped ExactStep

/-! ### Preimages under products -/

namespace Square

variable (g h m : Square ℝ)

theorem mul_assoc : g * h * m = g * (h * m) := by
  obtain ⟨a, b, c, d⟩ := g
  obtain ⟨a', b', c', d'⟩ := h
  obtain ⟨a'', b'', c'', d''⟩ := m
  simp only [mk_mul_mk, mk.injEq]
  refine ⟨?_, ?_, ?_, ?_⟩ <;> ring

theorem mul_one : g * ⟨1, 0, 0, 1⟩ = g := by
  obtain ⟨a, b, c, d⟩ := g
  simp [mk_mul_mk]

theorem one_mul : ⟨1, 0, 0, 1⟩ * g = g := by
  obtain ⟨a, b, c, d⟩ := g
  simp [mk_mul_mk]

theorem inverse_unique {g h m : Square ℝ} (hleft : h * g = ⟨1, 0, 0, 1⟩) (hright : g * m = ⟨1, 0, 0, 1⟩) : h = m := by
  rw [← mul_one h, ← hright, ← mul_assoc, hleft, one_mul]

end Square

variable {E : Type} [Exponent E]

namespace PlaneOp

/-- A map that has an inverse has determinant one or minus one. -/
theorem eval_det_sq {g inv : PlaneOp E} (hE : Stores E (2 * g.depth)) (h : g.inverse = .ok inv) :
    ((g.eval : Square ℝ).m₀₀ * (g.eval : Square ℝ).m₁₁ - (g.eval : Square ℝ).m₀₁ * (g.eval : Square ℝ).m₁₀) ^ 2 = 1 := by
  have hdet : g.unbounded.det.value = 1 ∨ g.unbounded.det.value = -1 :=
    ((exists_inverse_iff _).1 ⟨_, inverse_unbounded hE h⟩).imp
      (fun hone => (det_eq_one_iff _).1 ((det_eq_one_iff_same _).1 hone))
      fun hone => (det_eq_neg_one_iff _).1 ((det_eq_neg_one_iff_same _).1 hone)
  rw [value_det] at hdet
  simp only [QuadFrac.value_eq_toReal] at hdet
  rw [eval_real]
  change (g.m₀₀.toReal * g.m₁₁.toReal - g.m₀₁.toReal * g.m₁₀.toReal) ^ 2 = 1
  rcases hdet with hdet | hdet
  · rw [show g.m₀₀.toReal * g.m₁₁.toReal - g.m₀₁.toReal * g.m₁₀.toReal = 1 by exact_mod_cast hdet, one_pow]
  · rw [show g.m₀₀.toReal * g.m₁₁.toReal - g.m₀₁.toReal * g.m₁₀.toReal = -1 by exact_mod_cast hdet, neg_one_sq]

namespace IsSmallGridOp

variable {g h : PlaneOp E}

/-- The map and its conjugate have inverses. -/
theorem exists_inverses (hg : IsSmallGridOp g) : ∃ inv invb, g.inverse = .ok inv ∧ g.bullet.inverse = .ok invb := by
  obtain ⟨inv, hinv, -⟩ := hg.inverse
  obtain ⟨invb, hinvb, -⟩ := hg.bullet.inverse
  exact ⟨inv, invb, hinv, hinvb⟩

theorem eval_compose (hg : IsSmallGridOp g) (hh : IsSmallGridOp h) : ((g.compose h).eval : Square ℝ) = g.eval * h.eval :=
  PlaneOp.eval_compose (.of_lt (by have := hg.depth_le; have := hh.depth_le; omega))

theorem eval_inverse_compose (hg : IsSmallGridOp g) (hh : IsSmallGridOp h) {ginv hinv inv : PlaneOp E}
    (hginv : g.inverse = .ok ginv) (hhinv : h.inverse = .ok hinv) (hinv' : (g.compose h).inverse = .ok inv) :
    (inv.eval : Square ℝ) = hinv.eval * ginv.eval := by
  refine Square.inverse_unique (eval_compose_inverse (hg.compose hh).stores_two_mul_depth hinv').1 ?_
  rw [hg.eval_compose hh, Square.mul_assoc, ← Square.mul_assoc h.eval, (eval_compose_inverse hh.stores_two_mul_depth hhinv).2,
    Square.one_mul, (eval_compose_inverse hg.stores_two_mul_depth hginv).2]

end IsSmallGridOp

end PlaneOp

namespace Ellipse

theorem pullBack_pullBack (e : Ellipse ℝ) (g gInv h hInv : Square ℝ) :
    (e.pullBack g gInv).pullBack h hInv = e.pullBack (g * h) (hInv * gInv) := by
  obtain ⟨a, b, c, d⟩ := g
  obtain ⟨a', b', c', d'⟩ := h
  obtain ⟨x', y', z', w'⟩ := gInv
  obtain ⟨x, y, z, w⟩ := hInv
  simp only [pullBack, Square.mk_mul_mk, mk.injEq, Prod.mk.injEq]
  refine ⟨?_, ?_, ?_, ?_, ?_⟩ <;> ring

theorem pullBack_one (e : Ellipse ℝ) : e.pullBack ⟨1, 0, 0, 1⟩ ⟨1, 0, 0, 1⟩ = e := by
  obtain ⟨xx, xy, yy, centre⟩ := e
  simp [pullBack]

theorem IsUnimodular.pullBack {e : Ellipse ℝ} (he : e.IsUnimodular) {g inv : PlaneOp E} (hE : Stores E (2 * g.depth))
    (h : g.inverse = .ok inv) : (e.pullBack g.eval inv.eval).IsUnimodular where
  definite := isDegenerate_pullBack (PlaneOp.eval_compose_inverse hE h).2 he.definite
  det := by rw [det_pullBack, PlaneOp.eval_det_sq hE h, he.det, mul_one]

end Ellipse

namespace UprightPair

open PlaneOp

theorem preimages_identity (a b : Ellipse ℝ) : preimages a b (identity : PlaneOp E) = .ok (a, b) := by
  have hsmall : IsSmallGridOp (identity : PlaneOp E) := isSmallGridOp_identity
  obtain ⟨inv, invb, hinv, hinvb⟩ := hsmall.exists_inverses
  have hone {inv : PlaneOp E} (h : (identity : PlaneOp E).inverse = .ok inv) : (inv.eval : Square ℝ) = ⟨1, 0, 0, 1⟩ := by
    have hone := (eval_compose_inverse hsmall.stores_two_mul_depth h).2
    rwa [eval_identity, Square.one_mul] at hone
  rw [preimages_eq a b hinv hinvb, bullet_identity, eval_identity, hone hinv, hone (bullet_identity (E := E) ▸ hinvb),
    Ellipse.pullBack_one, Ellipse.pullBack_one]

/-- The preimages under a product are the preimages of the preimages. -/
theorem preimages_compose {a b : Ellipse ℝ} {p : Ellipse ℝ × Ellipse ℝ} {g h : PlaneOp E} (hg : IsSmallGridOp g)
    (hh : IsSmallGridOp h) (hp : preimages a b g = .ok p) : preimages a b (g.compose h) = preimages p.1 p.2 h := by
  obtain ⟨ginv, ginvb, hginv, hginvb⟩ := hg.exists_inverses
  obtain ⟨hinv, hinvb, hhinv, hhinvb⟩ := hh.exists_inverses
  obtain ⟨inv, invb, hinv', hinvb'⟩ := (hg.compose hh).exists_inverses
  obtain rfl : (a.pullBack g.eval ginv.eval, b.pullBack g.bullet.eval ginvb.eval) = p :=
    Except.ok.inj ((preimages_eq a b hginv hginvb).symm.trans hp)
  rw [preimages_eq _ _ hinv' hinvb', preimages_eq _ _ hhinv hhinvb, Ellipse.pullBack_pullBack, Ellipse.pullBack_pullBack,
    hg.eval_compose hh, hg.eval_inverse_compose hh hginv hhinv hinv']
  rw [bullet_compose] at hinvb' ⊢
  rw [hg.bullet.eval_compose hh.bullet, hg.bullet.eval_inverse_compose hh.bullet hginvb hhinvb hinvb']

/-! ### One round -/

/-- A pair of forms of determinant one. -/
structure Unimodular (p : Ellipse ℝ × Ellipse ℝ) : Prop where
  /-- The first form. -/
  first : p.1.IsUnimodular
  /-- The second form. -/
  second : p.2.IsUnimodular

/-- The sum of the squares of the off-diagonal entries. -/
noncomputable def skewOf (p : Ellipse ℝ × Ellipse ℝ) : ℝ := p.1.xy ^ 2 + p.2.xy ^ 2

/-- The shift of a pair. -/
noncomputable def shiftOf (p : Ellipse ℝ × Ellipse ℝ) : ℤ := Shape.shiftFor (Shape.exact p.1) (Shape.exact p.2)

/-- The most reflections that can follow each other from here: `Z` if the second off-diagonal entry is negative, and `X`
and then perhaps `Z` if the sum of the biases is. -/
noncomputable def rank (p : Ellipse ℝ × Ellipse ℝ) : ℕ :=
  (if Shape.parity (shiftOf p) * p.2.xy < 0 then 1 else 0) + if (Shape.exact p.1).z + (Shape.exact p.2).z < 0 then 2 else 0

/-- A round takes a pair to its preimages under the chosen step. -/
def Round (E : Type) [Exponent E] (p : Ellipse ℝ × Ellipse ℝ) (h : Elementary) (q : Ellipse ℝ × Ellipse ℝ) : Prop :=
  ∃ k, Shape.step? (Shape.exact p.1) (Shape.exact p.2) = .ok (some (h, k)) ∧
    preimages p.1 p.2 ((h.op : PlaneOp E).shifted k) = .ok q

variable {p q : Ellipse ℝ × Ellipse ℝ} {h : Elementary}

theorem rank_le (p : Ellipse ℝ × Ellipse ℝ) : rank p ≤ 3 := by
  rw [rank]
  split <;> split <;> norm_num

theorem step_of_skew_le (hskew : skewOf p ≤ 15) : Shape.step? (Shape.exact p.1) (Shape.exact p.2) = .ok none := by
  refine if_pos ((Shape.atMost_iff _ _).2 ?_)
  rw [skewOf, pow_two, pow_two] at hskew
  exact hskew

theorem exists_step_of_lt (hskew : 15 < skewOf p) :
    ∃ h, Shape.step? (Shape.exact p.1) (Shape.exact p.2) = .ok (some (h, shiftOf p)) ∧
      Shape.Chosen p.1.xy (Shape.parity (shiftOf p) * p.2.xy) ((Shape.exact p.1).z - shiftOf p)
        ((Shape.exact p.2).z + shiftOf p) h := by
  rw [skewOf, pow_two, pow_two] at hskew
  exact Shape.exists_step (Shape.exact_signed p.1) (Shape.exact_signed p.2) hskew

/-- What a round does. -/
structure Round.Spec (p : Ellipse ℝ × Ellipse ℝ) (h : Elementary) (q : Ellipse ℝ × Ellipse ℝ) : Prop where
  /-- The pair was not upright. -/
  skew : 15 < skewOf p
  /-- The choice. -/
  chosen : Shape.Chosen p.1.xy (Shape.parity (shiftOf p) * p.2.xy) ((Shape.exact p.1).z - shiftOf p)
    ((Shape.exact p.2).z + shiftOf p) h
  /-- The new pair. -/
  images : ∃ inv invb : Square ℝ, q = (p.1.pullBack ((h.op : PlaneOp ℕ).shifted (shiftOf p)).eval inv,
    p.2.pullBack ((h.op : PlaneOp ℕ).shifted (shiftOf p)).bullet.eval invb)
  /-- The new forms have determinant one. -/
  unimodular : Unimodular q

theorem spec_of_images (hp : Unimodular p) (hskew : 15 < skewOf p)
    (hchosen : Shape.Chosen p.1.xy (Shape.parity (shiftOf p) * p.2.xy) ((Shape.exact p.1).z - shiftOf p)
      ((Shape.exact p.2).z + shiftOf p) h) (himages : preimages p.1 p.2 ((h.op : PlaneOp E).shifted (shiftOf p)) = .ok q) :
    Round.Spec p h q := by
  have hsmall : IsSmallGridOp ((h.op : PlaneOp E).shifted (shiftOf p)) := h.isSmallGridOp.shifted _
  have hstep : ((h.op : PlaneOp E).shifted (shiftOf p)).unbounded = h.op.shifted (shiftOf p) := by
    rw [unbounded_shifted, h.unbounded_op]
  obtain ⟨inv, invb, hinv, hinvb⟩ := hsmall.exists_inverses
  obtain rfl : (p.1.pullBack ((h.op : PlaneOp E).shifted (shiftOf p)).eval inv.eval,
      p.2.pullBack ((h.op : PlaneOp E).shifted (shiftOf p)).bullet.eval invb.eval) = q :=
    Except.ok.inj ((preimages_eq p.1 p.2 hinv hinvb).symm.trans himages)
  refine ⟨hskew, hchosen, ⟨inv.eval, invb.eval, ?_⟩, hp.first.pullBack hsmall.stores_two_mul_depth hinv,
    hp.second.pullBack hsmall.bullet.stores_two_mul_depth hinvb⟩
  rw [← hstep, ← unbounded_bullet, eval_unbounded, eval_unbounded]

theorem Round.spec (hp : Unimodular p) (hround : Round E p h q) : Round.Spec p h q := by
  obtain ⟨k, hstep, himages⟩ := hround
  have hskew : 15 < skewOf p := by
    by_contra hsmall
    rw [step_of_skew_le (not_lt.1 hsmall)] at hstep
    cases hstep
  obtain ⟨h', hstep', hchosen⟩ := exists_step_of_lt hskew
  rw [hstep'] at hstep
  cases hstep
  exact spec_of_images hp hskew hchosen himages

/-- There is a round from every pair that is not upright. -/
theorem exists_round (hskew : 15 < skewOf p) : ∃ h q, Round E p h q := by
  obtain ⟨h, hstep, -⟩ := exists_step_of_lt hskew
  obtain ⟨inv, invb, hinv, hinvb⟩ := ((h.isSmallGridOp : IsSmallGridOp (h.op : PlaneOp E)).shifted (shiftOf p)).exists_inverses
  exact ⟨h, _, shiftOf p, hstep, preimages_eq p.1 p.2 hinv hinvb⟩

namespace Round.Spec

/-- The new off-diagonal entries, the second one up to its sign. -/
theorem entries (hp : Unimodular p) (hspec : Round.Spec p h q) :
    q.1.xy = Square.mixed (h.op : PlaneOp ℕ).eval p.1.size p.1.xy (lambda ^ ((Shape.exact p.1).z - shiftOf p)) ∧
      q.2.xy = Shape.parity (shiftOf p) * Square.mixed (h.op : PlaneOp ℕ).bullet.eval p.2.size (Shape.parity (shiftOf p) * p.2.xy)
        (lambda ^ ((Shape.exact p.2).z + shiftOf p)) := by
  obtain ⟨inv, invb, rfl⟩ := hspec.images
  exact ⟨Ellipse.xy_pullBack_shifted hp.first _ _ _, Ellipse.xy_pullBack_bullet_shifted hp.second _ _ _⟩

theorem parity_mul_sq (k : ℤ) (x : ℝ) : (Shape.parity k * x) ^ 2 = x ^ 2 := by
  rw [mul_pow, pow_two (Shape.parity k), Shape.parity_mul_self, one_mul]

theorem skewOf_eq_shifted (p : Ellipse ℝ × Ellipse ℝ) : skewOf p = p.1.xy ^ 2 + (Shape.parity (shiftOf p) * p.2.xy) ^ 2 := by
  rw [skewOf, parity_mul_sq]

theorem skewOf_le (hp : Unimodular p) (hspec : Round.Spec p h q) (hreduces : ¬h.IsReflection) :
    skewOf q ≤ 9 / 10 * skewOf p := by
  obtain ⟨hfirst, hsecond⟩ := hspec.entries hp
  have hskew := hspec.skew
  rw [skewOf_eq_shifted] at hskew
  rw [skewOf_eq_shifted p, skewOf, hfirst, hsecond, parity_mul_sq]
  refine hspec.chosen.skew_le hreduces (Shape.abs_bias_le _ _) p.1.size_pos.le p.1.size_sq p.2.size_pos.le ?_ hskew
  rw [parity_mul_sq, p.2.size_sq]

theorem skewOf_eq (hp : Unimodular p) (hspec : Round.Spec p h q) (hreflects : h.IsReflection) : skewOf q = skewOf p := by
  obtain ⟨hfirst, hsecond⟩ := hspec.entries hp
  rw [skewOf_eq_shifted p, skewOf, hfirst, hsecond, parity_mul_sq]
  rcases hreflects with rfl | rfl
  · rw [Elementary.eval_X.1, Elementary.eval_X.2]
    simp only [Square.mixed]
    ring
  · rw [Elementary.eval_Z.1, Elementary.eval_Z.2]
    simp only [Square.mixed]
    ring

/-! ### Reflections -/

/-- The reflection `Z` keeps the biases. -/
theorem z_pullBack_Z (e : Ellipse ℝ) (x : ℝ) (gInv : Square ℝ) :
    (Shape.exact (e.pullBack (Square.stretched ⟨1, 0, 0, -1⟩ x) gInv)).z = (Shape.exact e).z := by
  simp [Shape.exact, Ellipse.pullBack, Square.stretched]

/-- The reflection `X` changes the sign of a bias and moves it by the shift. -/
theorem z_pullBack_X {e : Ellipse ℝ} (he : e.IsUnimodular) {x : ℝ} (hx : x ≠ 0) (gInv : Square ℝ) :
    (Shape.exact (e.pullBack (Square.stretched ⟨0, 1, 1, 0⟩ x) gInv)).z =
      -(Shape.exact e).z + 2 * Real.log x / Real.log lambda := by
  have hxx : (e.pullBack (Square.stretched ⟨0, 1, 1, 0⟩ x) gInv).xx = x⁻¹ * x⁻¹ * e.yy := by
    simp only [Ellipse.pullBack, Square.stretched]
    ring
  have hyy : (e.pullBack (Square.stretched ⟨0, 1, 1, 0⟩ x) gInv).yy = x * x * e.xx := by
    simp only [Ellipse.pullBack, Square.stretched]
    ring
  have hlog := Shape.log_lambda_pos.ne'
  have hinv := inv_ne_zero hx
  rw [Shape.exact_z, Shape.exact_z, hxx, hyy, Real.log_mul (mul_ne_zero hx hx) he.xx_pos.ne', Real.log_mul hx hx,
    Real.log_mul (mul_ne_zero hinv hinv) he.yy_pos.ne', Real.log_mul hinv hinv, Real.log_inv]
  field_simp
  ring

theorem log_stretch (k : ℤ) : Real.log (Shape.parity k * (lambda ^ k)⁻¹) = -Real.log (lambda ^ k) := by
  have hpow := zpow_pos lambda_pos k
  have hparity : Real.log (Shape.parity k) = 0 := by
    rw [Shape.parity]
    split
    · rw [Real.log_neg_eq_log, Real.log_one]
    · exact Real.log_one
  rw [Real.log_mul (left_ne_zero_of_mul_eq_one (Shape.parity_mul_self k)) (inv_ne_zero hpow.ne'), hparity, zero_add,
    Real.log_inv]

/-- After the reflection `X` the sum of the biases has the opposite sign. -/
theorem sum_of_X (hp : Unimodular p) (hspec : Round.Spec p .X q) :
    (Shape.exact q.1).z + (Shape.exact q.2).z = -((Shape.exact p.1).z + (Shape.exact p.2).z) := by
  obtain ⟨inv, invb, rfl⟩ := hspec.images
  have hpow := zpow_pos lambda_pos (shiftOf p)
  have hstretch := mul_ne_zero (left_ne_zero_of_mul_eq_one (Shape.parity_mul_self (shiftOf p))) (inv_ne_zero hpow.ne')
  dsimp only
  rw [PlaneOp.eval_shifted, PlaneOp.eval_bullet_shifted, Elementary.eval_X.1, Elementary.eval_X.2,
    z_pullBack_X hp.first hpow.ne', z_pullBack_X hp.second hstretch, log_stretch]
  ring

/-- The reflection `Z` keeps the biases and changes the sign of the second off-diagonal entry. -/
theorem of_Z (hp : Unimodular p) (hspec : Round.Spec p .Z q) : (Shape.exact q.1).z = (Shape.exact p.1).z ∧
    (Shape.exact q.2).z = (Shape.exact p.2).z ∧ q.2.xy = -p.2.xy := by
  have hentry := (hspec.entries hp).2
  obtain ⟨inv, invb, rfl⟩ := hspec.images
  refine ⟨?_, ?_, ?_⟩
  · dsimp only
    rw [PlaneOp.eval_shifted, Elementary.eval_Z.1, z_pullBack_Z]
  · dsimp only
    rw [PlaneOp.eval_bullet_shifted, Elementary.eval_Z.2, z_pullBack_Z]
  · rw [hentry, Elementary.eval_Z.2]
    simp only [Square.mixed]
    linear_combination -p.2.xy * Shape.parity_mul_self (shiftOf p)

/-- A reflection lowers the rank. -/
theorem rank_lt (hp : Unimodular p) (hspec : Round.Spec p h q) (hreflects : h.IsReflection) : rank q < rank p := by
  have hchosen := hspec.chosen
  rcases hreflects with rfl | rfl
  · cases hchosen with
    | X hbeta hsum =>
      have hneg : (Shape.exact p.1).z + (Shape.exact p.2).z < 0 := by linarith
      have hpos : ¬-((Shape.exact p.1).z + (Shape.exact p.2).z) < 0 := by linarith
      rw [rank, rank, sum_of_X hp hspec, if_neg (not_lt.2 hbeta), if_pos hneg, if_neg hpos]
      split <;> norm_num
  · cases hchosen with
    | Z hbeta =>
      obtain ⟨hz, hzeta, hxy⟩ := hspec.of_Z hp
      have hshift : shiftOf q = shiftOf p := by
        rw [shiftOf, shiftOf, Shape.shiftFor_eq, Shape.shiftFor_eq, hz, hzeta]
      have hpos : ¬Shape.parity (shiftOf p) * -p.2.xy < 0 := by linarith
      rw [rank, rank, hshift, hz, hzeta, hxy, if_pos hbeta, if_neg hpos]
      omega

end Round.Spec

/-! ### Runs of rounds -/

/-- Some rounds lead from one pair to another. -/
inductive Rounds (E : Type) [Exponent E] : Ellipse ℝ × Ellipse ℝ → List Elementary → Ellipse ℝ × Ellipse ℝ → Prop
  /-- No round. -/
  | refl (p : Ellipse ℝ × Ellipse ℝ) : Rounds E p [] p
  /-- A round, and more. -/
  | head {p q r : Ellipse ℝ × Ellipse ℝ} {h : Elementary} {hs : List Elementary} :
    Round E p h q → Rounds E q hs r → Rounds E p (h :: hs) r

theorem Rounds.unimodular {hs : List Elementary} (hrun : Rounds E p hs q) (hp : Unimodular p) : Unimodular q := by
  induction hrun with
  | refl p => exact hp
  | head hround _ ih => exact ih (hround.spec hp).unimodular

/-- Reflections alone do not go on for long. -/
theorem Rounds.length_le_rank {hs : List Elementary} (hrun : Rounds E p hs q) (hp : Unimodular p)
    (hreflect : ∀ h ∈ hs, h.IsReflection) : hs.length ≤ rank p := by
  induction hrun with
  | refl p => exact Nat.zero_le _
  | head hround _ ih =>
    have hspec := hround.spec hp
    have hlt := hspec.rank_lt hp (hreflect _ List.mem_cons_self)
    have hrest := ih hspec.unimodular fun h hh => hreflect h (List.mem_cons_of_mem _ hh)
    rw [List.length_cons]
    omega

/-- The skew after a run. -/
theorem Rounds.skewOf_le {hs : List Elementary} (hrun : Rounds E p hs q) (hp : Unimodular p) :
    skewOf q ≤ (9 / 10) ^ (hs.countP fun h => ¬h.IsReflection) * skewOf p := by
  induction hrun with
  | refl p => rw [List.countP_nil, pow_zero, one_mul]
  | @head p q r h hs hround _ ih =>
    have hspec := hround.spec hp
    have hrest := ih hspec.unimodular
    rw [List.countP_cons]
    by_cases hreflects : h.IsReflection
    · rw [hspec.skewOf_eq hp hreflects] at hrest
      simpa [hreflects] using hrest
    · have hstep := mul_le_mul_of_nonneg_left (hspec.skewOf_le hp hreflects)
        (by positivity : (0 : ℝ) ≤ (9 / 10) ^ (hs.countP fun h => ¬h.IsReflection))
      rw [if_pos (by simpa using hreflects), pow_succ, mul_assoc]
      exact hrest.trans hstep

/-! ### The whole reduction -/

/-- The rounds of a reduction, with the shapes read off by a given function. -/
def reduceBy {K C : Type} [Scalar K] [StepNumber C] (shape : Ellipse K → Shape C) (a b : Ellipse K) (g : PlaneOp E) :
    (left : ℕ) → Except Failure (PlaneOp E × ℕ)
  | 0 => .error (.broken (.unreduced maxSteps))
  | left + 1 => do
    let (ea, eb) ← preimages a b g
    match ← Shape.step? (shape ea) (shape eb) with
    | none => return (g, left)
    | some (h, k) => reduceBy shape a b (g.compose (h.op.shifted k)) left

/-- The reduction of a search reads the shapes off with coarse numbers. -/
theorem reduceFrom_eq_reduceBy {K : Type} [NumericScalar K] (a b : Ellipse K) (g : PlaneOp E) (left : ℕ) :
    reduceFrom a b g left = reduceBy Shape.ofEllipse a b g left := by
  induction left generalizing g with
  | zero => rfl
  | succ left ih =>
    rw [reduceFrom, reduceBy]
    refine bind_congr fun images => bind_congr fun next => ?_
    cases next with
    | none => rfl
    | some step => exact ih _

variable {a b : Ellipse ℝ} {g : PlaneOp E}

theorem reduceBy_of_upright (hp : preimages a b g = .ok p) (hskew : skewOf p ≤ 15) (left : ℕ) :
    reduceBy Shape.exact a b g (left + 1) = .ok (g, left) := by
  rw [reduceBy, hp]
  simp only [bind, Except.bind, step_of_skew_le hskew]
  rfl

/-- One round of a reduction is a round of the pair that it has come to. -/
theorem reduceBy_of_round (hg : IsSmallGridOp g) (hp : preimages a b g = .ok p) (hround : Round E p h q) (left : ℕ) :
    ∃ g' : PlaneOp E, IsSmallGridOp g' ∧ preimages a b g' = .ok q ∧
      reduceBy Shape.exact a b g (left + 1) = reduceBy Shape.exact a b g' left := by
  obtain ⟨k, hstep, himages⟩ := hround
  have hsmall : IsSmallGridOp ((h.op : PlaneOp E).shifted k) := h.isSmallGridOp.shifted k
  refine ⟨g.compose (h.op.shifted k), hg.compose hsmall, (preimages_compose hg hsmall hp).trans himages, ?_⟩
  rw [reduceBy, hp]
  simp only [bind, Except.bind, hstep]

/-- A reduction of a pair whose skew is at most `15 (10/9)^m` takes at most `4 m` rounds. -/
theorem reduceBy_ends {n m : ℕ} (hg : IsSmallGridOp g) (himages : preimages a b g = .ok p) (hp : Unimodular p)
    (hskew : skewOf p ≤ 15 * (10 / 9) ^ m) (hrounds : m = 0 ∨ 4 * m + rank p ≤ n + 3) :
    ∃ (g' : PlaneOp E) (left : ℕ) (q : Ellipse ℝ × Ellipse ℝ), reduceBy Shape.exact a b g (n + 1) = .ok (g', left) ∧
      preimages a b g' = .ok q ∧ Unimodular q ∧ skewOf q ≤ 15 := by
  induction n generalizing g p m with
  | zero =>
    obtain rfl : m = 0 := by omega
    rw [pow_zero, mul_one] at hskew
    exact ⟨g, 0, p, reduceBy_of_upright himages hskew 0, himages, hp, hskew⟩
  | succ n ih =>
    by_cases hupright : skewOf p ≤ 15
    · exact ⟨g, n + 1, p, reduceBy_of_upright himages hupright _, himages, hp, hupright⟩
    obtain ⟨h, q, hround⟩ := exists_round (E := E) (not_le.1 hupright)
    have hspec := hround.spec hp
    obtain ⟨g', hg', himages', hstep⟩ := reduceBy_of_round hg himages hround (n + 1)
    obtain ⟨m, rfl⟩ : ∃ l, m = l + 1 := by
      refine Nat.exists_eq_succ_of_ne_zero fun hzero => hupright ?_
      rwa [hzero, pow_zero, mul_one] at hskew
    rw [hstep]
    by_cases hreflects : h.IsReflection
    · have hrank := hspec.rank_lt hp hreflects
      exact ih hg' himages' hspec.unimodular ((hspec.skewOf_eq hp hreflects).trans_le hskew) (.inr (by omega))
    · have hrank := rank_le q
      have hlower : skewOf q ≤ 15 * (10 / 9) ^ m := by
        have hle := hspec.skewOf_le hp hreflects
        rw [pow_succ] at hskew
        linarith
      exact ih hg' himages' hspec.unimodular hlower (by omega)

/-- A reduction without rounding ends with an upright pair. -/
def EndsUpright (E : Type) [Exponent E] (a b : Ellipse ℝ) (rounds : ℕ) : Prop :=
  ∃ (g : PlaneOp E) (left : ℕ) (q : Ellipse ℝ × Ellipse ℝ), reduceBy Shape.exact a b identity rounds = .ok (g, left) ∧
    preimages a b g = .ok q ∧ Unimodular q ∧ skewOf q ≤ 15

/-- Without rounding, reductions descend. -/
structure Descends (E : Type) [Exponent E] : Prop where
  /-- There is a step for every pair that is not upright. -/
  exists_round (p : Ellipse ℝ × Ellipse ℝ) (hp : Unimodular p) (hskew : 15 < skewOf p) : ∃ h q, Round E p h q
  /-- Rounds lead from forms of determinant one to forms of determinant one. -/
  unimodular (p q : Ellipse ℝ × Ellipse ℝ) (hs : List Elementary) (hp : Unimodular p) (hrun : Rounds E p hs q) : Unimodular q
  /-- A reflection keeps the skew. -/
  skew_of_reflection (p q : Ellipse ℝ × Ellipse ℝ) (h : Elementary) (hp : Unimodular p) (hround : Round E p h q)
    (hreflects : h.IsReflection) : skewOf q = skewOf p
  /-- Every other step lowers it by a tenth. -/
  skew_le (p q : Ellipse ℝ × Ellipse ℝ) (h : Elementary) (hp : Unimodular p) (hround : Round E p h q)
    (hreduces : ¬h.IsReflection) : skewOf q ≤ 9 / 10 * skewOf p
  /-- At most three reflections follow each other. -/
  reflections_le_three (p q : Ellipse ℝ × Ellipse ℝ) (hs : List Elementary) (hp : Unimodular p) (hrun : Rounds E p hs q)
    (hreflect : ∀ h ∈ hs, h.IsReflection) : hs.length ≤ 3
  /-- The skew after a run. -/
  skew_of_rounds (p q : Ellipse ℝ × Ellipse ℝ) (hs : List Elementary) (hp : Unimodular p) (hrun : Rounds E p hs q) :
    skewOf q ≤ (9 / 10) ^ (hs.countP fun h => ¬h.IsReflection) * skewOf p
  /-- The skew is below some power of `10/9`. -/
  exists_bound (a b : Ellipse ℝ) : ∃ m : ℕ, skewOf (a, b) ≤ 15 * (10 / 9) ^ m
  /-- So a reduction ends, after at most four times as many rounds. -/
  ends (a b : Ellipse ℝ) (hp : Unimodular (a, b)) (m n : ℕ) (hskew : skewOf (a, b) ≤ 15 * (10 / 9) ^ m) (hn : 4 * m ≤ n) :
    EndsUpright E a b (n + 1)
  /-- The forms that a reduction begins with have determinant one. -/
  normalized (e : Ellipse ℝ) (he : e.isDegenerate = false) : ∃ n, e.normalized = .ok n ∧ n.IsUnimodular
  /-- A shift fits into a word of 64 bits, as long as the biases are not further apart than that. -/
  shift_mem_word (s t : Shape ℝ) (h : |t.z - s.z| ≤ 2 ^ 64 - 2) : -2 ^ 63 ≤ Shape.shiftFor s t ∧ Shape.shiftFor s t < 2 ^ 63
  /-- The reduction of a search takes its rounds in the same way. -/
  reduceFrom_eq (K : Type) [NumericScalar K] (a b : Ellipse K) (g : PlaneOp E) (left : ℕ) :
    reduceFrom a b g left = reduceBy Shape.ofEllipse a b g left

/-- Without rounding, there is a step for every pair of forms of determinant one that is not upright. A step other than a
reflection lowers the skew by a tenth, the reflections keep it, and at most three of them follow each other. So a reduction
ends, whatever pair it begins with. -/
theorem reduction_descends (E : Type) [Exponent E] : Descends E where
  exists_round _ _ := UprightPair.exists_round
  unimodular _ _ _ hp hrun := hrun.unimodular hp
  skew_of_reflection _ _ _ hp hround := (hround.spec hp).skewOf_eq hp
  skew_le _ _ _ hp hround := (hround.spec hp).skewOf_le hp
  reflections_le_three p _ _ hp hrun hreflect := (hrun.length_le_rank hp hreflect).trans (rank_le p)
  skew_of_rounds _ _ _ hp hrun := hrun.skewOf_le hp
  exists_bound a b := by
    obtain ⟨m, hm⟩ := pow_unbounded_of_one_lt (skewOf (a, b)) (by norm_num : (1 : ℝ) < 10 / 9)
    exact ⟨m, by linarith [pow_pos (by norm_num : (0 : ℝ) < 10 / 9) m]⟩
  ends a b hp m n hskew hn := by
    have hrank := rank_le (a, b)
    exact reduceBy_ends isSmallGridOp_identity (preimages_identity a b) hp hskew (by omega)
  normalized _ := Ellipse.exists_normalized
  shift_mem_word _ _ := Shape.shiftFor_mem_word
  reduceFrom_eq _ _ := reduceFrom_eq_reduceBy

/-- A tilted ellipse and a circle. -/
theorem reduction_descends_tilted :
    15 < skewOf (⟨1, 4, 17, (0, 0)⟩, ⟨1, 0, 1, (0, 0)⟩) ∧
      (∃ h q, Round UInt32 (⟨1, 4, 17, (0, 0)⟩, ⟨1, 0, 1, (0, 0)⟩) h q ∧ skewOf q ≤ 16) ∧
      EndsUpright UInt32 ⟨1, 4, 17, (0, 0)⟩ ⟨1, 0, 1, (0, 0)⟩ 5 := by
  have hp : Unimodular (⟨1, 4, 17, (0, 0)⟩, ⟨1, 0, 1, (0, 0)⟩) := by
    refine ⟨⟨Ellipse.isDegenerate_eq_false_iff.2 ?_, ?_⟩, ⟨Ellipse.isDegenerate_eq_false_iff.2 ?_, ?_⟩⟩
    all_goals
      rw [Ellipse.det_real]
      norm_num
  have hskew : skewOf (⟨1, 4, 17, (0, 0)⟩, ⟨1, 0, 1, (0, 0)⟩) = 16 := by norm_num [skewOf]
  have hdescends := reduction_descends UInt32
  obtain ⟨h, q, hround⟩ := hdescends.exists_round _ hp (by rw [hskew]; norm_num)
  refine ⟨by rw [hskew]; norm_num, ⟨h, q, hround, ?_⟩, hdescends.ends _ _ hp 1 4 (by rw [hskew]; norm_num) le_rfl⟩
  by_cases hh : h.IsReflection
  · exact (hdescends.skew_of_reflection _ _ _ hp hround hh).trans_le hskew.le
  · linarith [hdescends.skew_le _ _ _ hp hround hh]

end UprightPair

end CliffordT

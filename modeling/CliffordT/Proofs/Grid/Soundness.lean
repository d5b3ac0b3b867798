import CliffordT.Proofs.Grid.Line
import CliffordT.Proofs.Plane.Interval

/-!
What the one-dimensional enumeration yields belongs to both intervals, and nothing is yielded twice.

The two halves of a piece share the midpoint, and the upper one leaves it out. So the numbers that the pieces accept are
apart from each other after any number of splits. Within a piece at work a number is known by the candidate that it
was made from, since the factor between them is a unit.
-/

namespace CliffordT.Line

open Progress

theorem Lift.apply_injective (lift : Lift) : Function.Injective lift.apply := by
  intro x y h
  cases lift with
  | plain => exact h
  | parity n =>
    have ha := congrArg QuadInt.a h
    have hb := congrArg QuadInt.b h
    simp only [apply, QuadInt.timesRoot, QuadInt.add_a, QuadInt.add_b, QuadInt.ofInt_a, QuadInt.ofInt_b] at ha hb
    ext
    · omega
    · omega

section General

variable {K : Type} [NumericScalar K]

/-- Two pieces accept no number in common. -/
def Apart (q r : Piece K) : Prop := ∀ x, q.accepts x = true → r.accepts x = false

/-- The numbers that may still be yielded, before they are lifted. -/
def State.pending (s : State K) : Set QuadInt :=
  {x | (∃ q ∈ s.pieces, q.accepts x = true) ∨ ∃ l ∈ s.leaf, x ∈ l.Ahead}

/-- The numbers that may still be yielded. -/
def State.ahead (s : State K) : Set QuadInt := s.lift.apply '' s.pending

end General

variable {p : ℕ}

theorem Piece.accepts_iff (hp : 2 ≤ p) (q : Piece (Approx p)) (x : QuadInt) : q.accepts x = true ↔
    (if q.openBelow then q.i.lo.toReal < (x.eval : Approx p).toReal else q.i.lo.toReal ≤ (x.eval : Approx p).toReal) ∧
      (x.eval : Approx p).toReal ≤ q.i.hi.toReal ∧ q.j.contains (x.bullet.eval) = true := by
  rw [accepts]
  rw [Bool.and_eq_true, Bool.and_eq_true, Approx.atMost_iff hp, and_assoc]
  cases q.openBelow with
  | false => simp only [Bool.false_eq_true, if_false, Approx.atMost_iff hp]
  | true => simp only [if_true, Approx.less_iff hp]

/-- What a piece accepts is what its halves accept. -/
theorem Piece.accepts_iff_halves (hp : 2 ≤ p) {q : Piece (Approx p)} (hq : q.i.Fits)
    (hle : q.i.lo.toReal ≤ q.i.hi.toReal) (x : QuadInt) :
    q.accepts x = true ↔ q.lower.accepts x = true ∨ q.upper.accepts x = true := by
  have hlo := Interval.lo_le_midpoint (by omega) hq hle
  have hhi := Interval.midpoint_le_hi (by omega) hq hle
  rw [accepts_iff hp, accepts_iff hp, accepts_iff hp]
  simp only [lower, upper, Interval.lowerHalf, Interval.upperHalf, if_true]
  constructor
  · rintro ⟨hlow, hhigh, hj⟩
    rcases le_or_gt (x.eval : Approx p).toReal q.i.midpoint.toReal with hmid | hmid
    · exact .inl ⟨hlow, hmid, hj⟩
    · exact .inr ⟨hmid, hhigh, hj⟩
  · rintro (⟨hlow, hmid, hj⟩ | ⟨hmid, hhigh, hj⟩)
    · exact ⟨hlow, hmid.trans hhi, hj⟩
    · refine ⟨?_, hhigh, hj⟩
      split
      · exact hlo.trans_lt hmid
      · exact (hlo.trans_lt hmid).le

theorem Piece.apart_halves (hp : 2 ≤ p) (q : Piece (Approx p)) : Apart q.lower q.upper := by
  intro x hlower
  rw [← Bool.not_eq_true, accepts_iff hp]
  rw [accepts_iff hp] at hlower
  rintro ⟨hmid, _⟩
  exact absurd hlower.2.1 (not_le.2 hmid)

/-- The pieces of a state, and the piece at work, are apart from each other. -/
structure Separate (s : State (Approx p)) : Prop where
  /-- The ends are numbers of the precision. -/
  fits : ∀ q ∈ s.pieces, q.i.Fits
  /-- The pieces are apart. -/
  apart : s.pieces.Pairwise Apart
  /-- Candidates are scaled by a unit. -/
  unscale : ∀ l ∈ s.leaf, l.unscale ≠ 0
  /-- The piece at work is apart from the others. -/
  leaf : ∀ l ∈ s.leaf, ∀ q ∈ s.pieces, Apart l.piece q

theorem separate_between_leaves {pieces : List (Piece (Approx p))} (hfits : ∀ q ∈ pieces, q.i.Fits)
    (hapart : pieces.Pairwise Apart) (lift : Lift) : Separate ⟨pieces, none, lift⟩ where
  fits := hfits
  apart := hapart
  unscale l hl := absurd hl (Option.not_mem_none l)
  leaf l hl := absurd hl (Option.not_mem_none l)

theorem mem_pending_between_leaves {pieces : List (Piece (Approx p))} {lift : Lift} {x : QuadInt} :
    x ∈ State.pending ⟨pieces, none, lift⟩ ↔ ∃ q ∈ pieces, q.accepts x = true := by
  refine or_iff_left ?_
  rintro ⟨l, hl, _⟩
  exact absurd hl (Option.not_mem_none l)

theorem separate_withLift {i : Interval (Approx p)} (hi : i.Fits) (j : Interval (Approx p)) (lift : Lift) :
    Separate (withLift i j lift) := by
  refine separate_between_leaves (fun q hq => ?_) (List.pairwise_singleton _ _) lift
  obtain rfl := List.mem_singleton.1 hq
  exact hi

theorem separate_scaled (i j : Interval (Approx p)) (m : ℕ) : Separate (scaled i j m) :=
  separate_withLift (i := i.scale (rootPowers m).1) (i.fits_scale _) (j.scale (rootPowers m).2) .plain

theorem separate_scaledWithParity (i j : Interval (Approx p)) (m : ℕ) (n : ℤ) : Separate (scaledWithParity i j m n) :=
  separate_withLift (i := ((i.scale (rootPowers m).1).shift (-Scalar.ofInt n)).scale Scalar.invRootTwo)
    (Interval.fits_scale _ _) _ (.parity n)

theorem le_of_not_isEmpty (hp : 2 ≤ p) {q : Piece (Approx p)} (h : q.isEmpty = false) :
    q.i.lo.toReal ≤ q.i.hi.toReal := by
  rw [Piece.isEmpty, Bool.or_eq_false_iff] at h
  exact not_lt.1 (mt (Interval.isEmpty_iff hp q.i).2 (by rw [h.1]; exact Bool.false_ne_true))

/-- A quiet step keeps the pieces apart and adds nothing. -/
theorem Separate.quiet (hp : 2 ≤ p) {s s' : State (Approx p)} (hs : Separate s) (h : step s = .quiet s') :
    Separate s' ∧ s'.lift = s.lift ∧ s'.pending ⊆ s.pending := by
  obtain ⟨l, hleaf, ⟨_, rfl⟩ | ⟨l', hquiet, rfl⟩⟩ |
    ⟨q, rest, hleaf, hpieces, ⟨_, rfl⟩ | ⟨hempty, hlarge, rfl⟩ | ⟨hempty, hlarge, rfl⟩⟩ := step_quiet h
  · refine ⟨separate_between_leaves hs.fits hs.apart s.lift, rfl, fun x hx => ?_⟩
    exact .inl (mem_pending_between_leaves.1 hx)
  · obtain ⟨hunscale, hpiece⟩ := Leaf.unscale_quiet hquiet
    refine ⟨⟨hs.fits, hs.apart, ?_, ?_⟩, rfl, ?_⟩
    · rintro _ ⟨⟩
      rw [hunscale]
      exact hs.unscale l hleaf
    · rintro _ ⟨⟩
      rw [hpiece]
      exact hs.leaf l hleaf
    · rintro x (hx | ⟨_, ⟨⟩, hx⟩)
      · exact .inl hx
      · rw [Leaf.ahead_quiet hquiet] at hx
        exact .inr ⟨l, hleaf, hx⟩
  all_goals
    obtain ⟨pieces, leaf, lift⟩ := s
    obtain rfl : leaf = none := hleaf
    obtain rfl : pieces = q :: rest := hpieces
    obtain ⟨hq, hrest⟩ := List.forall_mem_cons.1 hs.fits
    obtain ⟨hqrest, hrests⟩ := List.pairwise_cons.1 hs.apart
  · -- an empty piece is left out
    refine ⟨separate_between_leaves hrest hrests lift, rfl, fun x hx => ?_⟩
    obtain ⟨r, hr, hx⟩ := mem_pending_between_leaves.1 hx
    exact .inl ⟨r, List.mem_cons_of_mem _ hr, hx⟩
  · -- a large piece makes room for its halves
    have hhalves := Piece.accepts_iff_halves hp hq (le_of_not_isEmpty hp hempty)
    refine ⟨separate_between_leaves ?_ ?_ lift, rfl, fun x hx => ?_⟩
    · exact List.forall_mem_cons.2 ⟨hq.lowerHalf (by omega), List.forall_mem_cons.2 ⟨hq.upperHalf (by omega), hrest⟩⟩
    · refine List.pairwise_cons.2 ⟨List.forall_mem_cons.2 ⟨q.apart_halves hp, ?_⟩, List.pairwise_cons.2 ⟨?_, hrests⟩⟩
      · exact fun r hr x hx => hqrest r hr x ((hhalves x).2 (.inl hx))
      · exact fun r hr x hx => hqrest r hr x ((hhalves x).2 (.inr hx))
    · obtain ⟨r, hr, hx⟩ := mem_pending_between_leaves.1 hx
      rcases List.mem_cons.1 hr with rfl | hr
      · exact .inl ⟨q, List.mem_cons_self, (hhalves x).2 (.inl hx)⟩
      rcases List.mem_cons.1 hr with rfl | hr
      · exact .inl ⟨q, List.mem_cons_self, (hhalves x).2 (.inr hx)⟩
      · exact .inl ⟨r, List.mem_cons_of_mem _ hr, hx⟩
  · -- a small piece is worked on
    refine ⟨⟨hrest, hrests, ?_, ?_⟩, rfl, ?_⟩
    · rintro _ ⟨⟩
      exact UnitLog.lambdaPow_ne_zero _
    · rintro _ ⟨⟩
      exact hqrest
    · rintro x (⟨r, hr, hx⟩ | ⟨_, ⟨⟩, hx⟩)
      · exact .inl ⟨r, List.mem_cons_of_mem _ hr, hx⟩
      · exact .inl ⟨q, List.mem_cons_self, hx.1⟩

/-- A yielded number was pending and is not pending any more. -/
theorem Separate.found {s s' : State (Approx p)} {x : QuadInt} (hs : Separate s) (h : step s = .found x s') :
    Separate s' ∧ s'.lift = s.lift ∧ ∃ y ∈ s.pending, x = s.lift.apply y ∧ s'.pending ⊆ s.pending \ {y} := by
  obtain ⟨l, l', y, hleaf, hfound, rfl, rfl⟩ := step_found h
  obtain ⟨hunscale, hpiece⟩ := Leaf.unscale_found hfound
  obtain ⟨hnot, hahead⟩ := Leaf.ahead_found (hs.unscale l hleaf) hfound
  have hy : y ∈ l.Ahead := by
    rw [hahead]
    exact Set.mem_insert y _
  refine ⟨⟨hs.fits, hs.apart, ?_, ?_⟩, rfl, y, .inr ⟨l, hleaf, hy⟩, rfl, ?_⟩
  · rintro _ ⟨⟩
    rw [hunscale]
    exact hs.unscale l hleaf
  · rintro _ ⟨⟩
    rw [hpiece]
    exact hs.leaf l hleaf
  · rintro x (⟨q, hq, hx⟩ | ⟨_, ⟨⟩, hx⟩)
    · refine ⟨.inl ⟨q, hq, hx⟩, ?_⟩
      rintro rfl
      exact absurd hx (Bool.eq_false_iff.1 (hs.leaf l hleaf q hq x hy.1))
    · refine ⟨.inr ⟨l, hleaf, hahead ▸ Set.mem_insert_of_mem y hx⟩, ?_⟩
      rintro rfl
      exact hnot hx

theorem Separate.ahead_quiet (hp : 2 ≤ p) {s s' : State (Approx p)} (hs : Separate s) (h : step s = .quiet s') :
    Separate s' ∧ s'.ahead ⊆ s.ahead := by
  obtain ⟨hsep, hlift, hsub⟩ := hs.quiet hp h
  rw [State.ahead, hlift]
  exact ⟨hsep, Set.image_mono hsub⟩

theorem Separate.ahead_found {s s' : State (Approx p)} {x : QuadInt} (hs : Separate s) (h : step s = .found x s') :
    Separate s' ∧ x ∈ s.ahead ∧ s'.ahead ⊆ s.ahead \ {x} := by
  obtain ⟨hsep, hlift, y, hy, rfl, hsub⟩ := hs.found h
  refine ⟨hsep, ⟨y, hy, rfl⟩, ?_⟩
  rw [State.ahead, hlift]
  rintro _ ⟨z, hz, rfl⟩
  exact ⟨⟨z, (hsub hz).1, rfl⟩, fun heq => (hsub hz).2 (s.lift.apply_injective heq)⟩

/-- A run from a state whose pieces are apart yields none of its numbers twice. -/
theorem Separate.run (hp : 2 ≤ p) {s t : State (Approx p)} {out : List QuadInt} (hs : Separate s)
    (h : Run step s out t) : out.Nodup ∧ ∀ x ∈ out, x ∈ s.ahead :=
  h.nodup (fun _ _ hr hstep => hr.ahead_quiet hp hstep) (fun _ _ _ hr hstep => hr.ahead_found hstep) hs

/-- In any part of a run no number is yielded twice, and every number belongs to both intervals. -/
theorem run_withLift (hp : 2 ≤ p) {i j : Interval (Approx p)} (hi : i.Fits) {lift : Lift} {out : List QuadInt}
    {t : State (Approx p)} (h : Run step (withLift i j lift) out t) : out.Nodup ∧ ∀ x ∈ out, ∃ y, lift.apply y = x ∧
      i.contains y.eval = true ∧ j.contains y.bullet.eval = true := by
  obtain ⟨hnodup, hmem⟩ := (separate_withLift hi j lift).run hp h
  refine ⟨hnodup, fun x hx => ?_⟩
  obtain ⟨y, hy, hlift⟩ := hmem x hx
  obtain ⟨q, hq, haccepts⟩ := mem_pending_between_leaves.1 hy
  obtain rfl := List.mem_singleton.1 hq
  rw [Piece.accepts_iff hp] at haccepts
  exact ⟨y, hlift, (i.contains_iff hp _).2 ⟨haccepts.1, haccepts.2.1⟩, haccepts.2.2⟩

end CliffordT.Line

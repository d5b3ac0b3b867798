import CliffordT.Grid.Line
import CliffordT.Proofs.Grid.Progress
import CliffordT.Proofs.NormEquation.UnitLog
import Mathlib.Data.Prod.Lex
import Mathlib.Order.WellFounded

/-!
Runs of the one-dimensional enumeration, over any scalars.

A small piece is always done after finitely many steps, and what it yields are the numbers that it accepts among the
candidates of its rows. So the whole enumeration ends exactly if the pieces that come from splitting are small or
empty after finitely many splits.
-/

namespace CliffordT.Line

open Progress

variable {K : Type} [NumericScalar K]

/-! ### A small piece -/

namespace Leaf

/-- The numbers that are still to be yielded: those accepted among the rest of the current row and the rows after it. -/
def Ahead (l : Leaf K) : Set QuadInt :=
  {x | l.piece.accepts x = true ∧ ∃ a b, x = ⟨a, b⟩ * l.unscale ∧ b ≤ l.bLast ∧
    ((b = l.b ∧ l.a ≤ a ∧ a ≤ l.aLast) ∨ (l.b < b ∧ (l.withB b).a ≤ a ∧ a ≤ (l.withB b).aLast))}

/-- The next candidate. -/
def candidate (l : Leaf K) : QuadInt := ⟨l.a, l.b⟩ * l.unscale

/-- The piece with the next candidate passed. -/
def passed (l : Leaf K) : Leaf K := { l with a := l.a + 1 }

theorem step_done {l : Leaf K} (h : l.step = .done) : l.bLast < l.b ∨ (l.aLast < l.a ∧ l.bLast ≤ l.b) := by
  rw [step] at h
  dsimp only at h
  split_ifs at h with hb ha haccepts hnext
  · exact .inl hb
  · exact .inr ⟨by omega, by omega⟩

theorem step_quiet {l l' : Leaf K} (h : l.step = .quiet l') : l.b ≤ l.bLast ∧
    ((l.a ≤ l.aLast ∧ l.piece.accepts l.candidate = false ∧ l' = l.passed) ∨
      (l.aLast < l.a ∧ l.b < l.bLast ∧ l' = l.withB (l.b + 1))) := by
  rw [step] at h
  dsimp only at h
  split_ifs at h with hb ha haccepts hnext
  · exact ⟨by omega, .inl ⟨ha, Bool.eq_false_iff.2 haccepts, (Progress.quiet.inj h).symm⟩⟩
  · exact ⟨by omega, .inr ⟨by omega, hnext, (Progress.quiet.inj h).symm⟩⟩

theorem step_found {l l' : Leaf K} {x : QuadInt} (h : l.step = .found x l') : l.b ≤ l.bLast ∧ l.a ≤ l.aLast ∧
    l.piece.accepts x = true ∧ x = l.candidate ∧ l' = l.passed := by
  rw [step] at h
  dsimp only at h
  split_ifs at h with hb ha haccepts hnext
  obtain ⟨rfl, rfl⟩ := Progress.found.inj h
  exact ⟨by omega, ha, haccepts, rfl, rfl⟩

/-- A piece at work comes to its end. -/
theorem exists_yields (l : Leaf K) : ∃ out, Yields step l out := by
  -- within a row the rest of the row gets shorter, and otherwise there is one row less
  let rows (l : Leaf K) : ℕ ×ₗ ℕ := toLex ((l.bLast + 1 - l.b).toNat, (l.aLast + 1 - l.a).toNat)
  have hpassed (l : Leaf K) (ha : l.a ≤ l.aLast) : rows l.passed < rows l := by
    refine Prod.Lex.toLex_lt_toLex.2 (.inr ⟨rfl, ?_⟩)
    dsimp only [passed]
    omega
  refine Progress.exists_yields rows (fun s s' h => ?_) (fun s a s' h => ?_) l
  · obtain ⟨hb, ⟨ha, _, rfl⟩ | ⟨_, hnext, rfl⟩⟩ := step_quiet h
    · exact hpassed s ha
    · refine Prod.Lex.toLex_lt_toLex.2 (.inl ?_)
      dsimp only [withB]
      omega
  · obtain ⟨_, ha, _, _, rfl⟩ := step_found h
    exact hpassed s ha

theorem ahead_quiet {l l' : Leaf K} (h : l.step = .quiet l') : l'.Ahead = l.Ahead := by
  obtain ⟨hb, ⟨ha, haccepts, rfl⟩ | ⟨ha, hnext, rfl⟩⟩ := step_quiet h
  · ext x
    constructor
    · rintro ⟨hx, a, b, rfl, hbl, ⟨rfl, hlow, hhigh⟩ | hrow⟩
      · exact ⟨hx, a, _, rfl, hbl, .inl ⟨rfl, by dsimp only [passed] at hlow; omega, hhigh⟩⟩
      · exact ⟨hx, a, b, rfl, hbl, .inr hrow⟩
    · rintro ⟨hx, a, b, rfl, hbl, ⟨rfl, hlow, hhigh⟩ | hrow⟩
      · refine ⟨hx, a, _, rfl, hbl, .inl ⟨rfl, ?_, hhigh⟩⟩
        obtain rfl | hlt := hlow.eq_or_lt
        · exact absurd hx (by rw [← Bool.not_eq_true] at haccepts; exact haccepts)
        · exact hlt
      · exact ⟨hx, a, b, rfl, hbl, .inr hrow⟩
  · ext x
    constructor
    · rintro ⟨hx, a, b, rfl, hbl, ⟨rfl, hlow, hhigh⟩ | ⟨hrow, hlow, hhigh⟩⟩
      · exact ⟨hx, a, _, rfl, hbl, .inr ⟨by dsimp only [withB]; omega, hlow, hhigh⟩⟩
      · exact ⟨hx, a, b, rfl, hbl, .inr ⟨by dsimp only [withB] at hrow; omega, hlow, hhigh⟩⟩
    · rintro ⟨hx, a, b, rfl, hbl, ⟨rfl, hlow, hhigh⟩ | ⟨hrow, hlow, hhigh⟩⟩
      · omega
      · refine ⟨hx, a, b, rfl, hbl, ?_⟩
        obtain hb1 | hb1 : b = l.b + 1 ∨ l.b + 1 < b := by omega
        · subst hb1
          exact .inl ⟨rfl, hlow, hhigh⟩
        · exact .inr ⟨hb1, hlow, hhigh⟩

theorem ahead_found {l l' : Leaf K} {x : QuadInt} (hunscale : l.unscale ≠ 0) (h : l.step = .found x l') :
    x ∉ l'.Ahead ∧ l.Ahead = insert x l'.Ahead := by
  obtain ⟨hb, ha, haccepts, rfl, rfl⟩ := step_found h
  constructor
  · rintro ⟨_, a, b, heq, _, ⟨_, hlow, _⟩ | ⟨hrow, _, _⟩⟩
    · have := congrArg QuadInt.a (mul_right_cancel₀ hunscale heq)
      dsimp only [passed] at hlow this
      omega
    · have := congrArg QuadInt.b (mul_right_cancel₀ hunscale heq)
      dsimp only [passed] at hrow this
      omega
  · ext x
    constructor
    · rintro ⟨hx, a, b, rfl, hbl, ⟨rfl, hlow, hhigh⟩ | hrow⟩
      · obtain rfl | hlt := hlow.eq_or_lt
        · exact .inl rfl
        · exact .inr ⟨hx, a, _, rfl, hbl, .inl ⟨rfl, hlt, hhigh⟩⟩
      · exact .inr ⟨hx, a, b, rfl, hbl, .inr hrow⟩
    · rintro (rfl | ⟨hx, a, b, rfl, hbl, ⟨rfl, hlow, hhigh⟩ | hrow⟩)
      · exact ⟨haccepts, l.a, l.b, rfl, hb, .inl ⟨rfl, le_rfl, ha⟩⟩
      · exact ⟨hx, a, _, rfl, hbl, .inl ⟨rfl, by dsimp only [passed] at hlow; omega, hhigh⟩⟩
      · exact ⟨hx, a, b, rfl, hbl, .inr hrow⟩

theorem ahead_done {l : Leaf K} (h : l.step = .done) : l.Ahead = ∅ := by
  refine Set.eq_empty_of_forall_notMem ?_
  rintro x ⟨_, a, b, _, hbl, hrow⟩
  have := step_done h
  omega

theorem unscale_quiet {l l' : Leaf K} (h : l.step = .quiet l') : l'.unscale = l.unscale ∧ l'.piece = l.piece := by
  obtain ⟨_, ⟨_, _, rfl⟩ | ⟨_, _, rfl⟩⟩ := step_quiet h
  · exact ⟨rfl, rfl⟩
  · exact ⟨rfl, rfl⟩

theorem unscale_found {l l' : Leaf K} {x : QuadInt} (h : l.step = .found x l') :
    l'.unscale = l.unscale ∧ l'.piece = l.piece := by
  obtain ⟨_, _, _, _, rfl⟩ := step_found h
  exact ⟨rfl, rfl⟩

/-- A piece at work yields all that is ahead of it. -/
theorem mem_of_ahead {l : Leaf K} (hunscale : l.unscale ≠ 0) {out : List QuadInt} (h : Yields step l out) :
    ∀ x ∈ l.Ahead, x ∈ out :=
  h.complete (I := fun l => l.unscale ≠ 0) Ahead
    (fun _ _ hI hs => ⟨by rwa [(unscale_quiet hs).1], (ahead_quiet hs).ge⟩)
    (fun _ _ _ hI hs => ⟨by rwa [(unscale_found hs).1], (ahead_found hI hs).2.le⟩)
    (fun _ _ hs => ahead_done hs) hunscale

end Leaf

/-! ### All pieces -/

/-- The half of a piece up to the midpoint. -/
def Piece.lower (p : Piece K) : Piece K := { p with i := p.i.lowerHalf }

/-- The half of a piece above the midpoint. -/
def Piece.upper (p : Piece K) : Piece K := { p with i := p.i.upperHalf, openBelow := true }

/-- Splitting a piece comes to an end. -/
inductive Settles : Piece K → Prop
  /-- There is nothing in an empty piece. -/
  | empty {p : Piece K} : p.isEmpty = true → Settles p
  /-- A small piece is not split. -/
  | small {p : Piece K} : p.isEmpty = false → p.isLarge = false → Settles p
  /-- A large piece is split in halves. -/
  | halve {p : Piece K} : p.isEmpty = false → p.isLarge = true → Settles p.lower → Settles p.upper → Settles p

theorem step_done {s : State K} (h : step s = .done) : s.leaf = none ∧ s.pieces = [] := by
  rw [step] at h
  split at h
  · split at h <;> cases h
  · next hleaf =>
    split at h
    · next hpieces => exact ⟨hleaf, hpieces⟩
    · split_ifs at h

/-- What a quiet step can do. -/
theorem step_quiet {s s' : State K} (h : step s = .quiet s') :
    (∃ l, s.leaf = some l ∧ ((l.step = .done ∧ s' = { s with leaf := none }) ∨
      ∃ l', l.step = .quiet l' ∧ s' = { s with leaf := some l' })) ∨
    ∃ p rest, s.leaf = none ∧ s.pieces = p :: rest ∧ ((p.isEmpty = true ∧ s' = { s with pieces := rest }) ∨
      (p.isEmpty = false ∧ p.isLarge = true ∧ s' = { s with pieces := p.lower :: p.upper :: rest }) ∨
      (p.isEmpty = false ∧ p.isLarge = false ∧ s' = { s with pieces := rest, leaf := some (Leaf.ofPiece p) })) := by
  rw [step] at h
  split at h
  · next l hleaf =>
    refine .inl ⟨l, hleaf, ?_⟩
    split at h
    · next hdone => exact .inl ⟨hdone, (Progress.quiet.inj h).symm⟩
    · next l' hquiet => exact .inr ⟨l', hquiet, (Progress.quiet.inj h).symm⟩
    · cases h
  · next hleaf =>
    split at h
    · cases h
    · next p rest hpieces =>
      refine .inr ⟨p, rest, hleaf, hpieces, ?_⟩
      split_ifs at h with hempty hlarge
      · exact .inl ⟨hempty, (Progress.quiet.inj h).symm⟩
      · exact .inr (.inl ⟨by simpa using hempty, hlarge, (Progress.quiet.inj h).symm⟩)
      · exact .inr (.inr ⟨by simpa using hempty, by simpa using hlarge, (Progress.quiet.inj h).symm⟩)

theorem step_found {s s' : State K} {x : QuadInt} (h : step s = .found x s') : ∃ l l' y, s.leaf = some l ∧
    l.step = .found y l' ∧ x = s.lift.apply y ∧ s' = { s with leaf := some l' } := by
  rw [step] at h
  split at h
  · next l hleaf =>
    split at h
    · cases h
    · cases h
    · next y l' hfound =>
      obtain ⟨rfl, rfl⟩ := Progress.found.inj h
      exact ⟨l, l', y, hleaf, hfound, rfl, rfl⟩
  · split at h
    · cases h
    · split_ifs at h

theorem run_leaf {l l' : Leaf K} {out : List QuadInt} (h : Run Leaf.step l out l') (pieces : List (Piece K))
    (lift : Lift) : Run step ⟨pieces, some l, lift⟩ (out.map lift.apply) ⟨pieces, some l', lift⟩ := by
  induction h with
  | refl l => exact .refl _
  | quiet hstep _ ih => exact .quiet (by simp only [step, hstep]) ih
  | found hstep _ ih => exact .found (by simp only [step, hstep]) ih

/-- A small piece is done after it has yielded what it has. -/
theorem run_small {p : Piece K} (hempty : p.isEmpty = false) (hlarge : p.isLarge = false) {out : List QuadInt}
    (h : Yields Leaf.step (Leaf.ofPiece p) out) (rest : List (Piece K)) (lift : Lift) :
    Run step ⟨p :: rest, none, lift⟩ (out.map lift.apply) ⟨rest, none, lift⟩ := by
  obtain ⟨l, hrun, hend⟩ := h
  have hopen : step ⟨p :: rest, none, lift⟩ = .quiet ⟨rest, some (Leaf.ofPiece p), lift⟩ := by
    simp [step, hempty, hlarge]
  have hlast : Run step ⟨rest, some l, lift⟩ [] ⟨rest, none, lift⟩ :=
    .quiet (by simp only [step, hend]) (.refl _)
  have hrest := (run_leaf hrun rest lift).trans hlast
  rw [List.append_nil] at hrest
  exact .quiet hopen hrest

theorem run_empty {p : Piece K} (hempty : p.isEmpty = true) (rest : List (Piece K)) (lift : Lift) :
    Run step ⟨p :: rest, none, lift⟩ [] ⟨rest, none, lift⟩ :=
  .quiet (by simp [step, hempty]) (.refl _)

theorem run_halves {p : Piece K} (hempty : p.isEmpty = false) (hlarge : p.isLarge = true) {first second : List QuadInt}
    {rest : List (Piece K)} {lift : Lift}
    (hlower : Run step ⟨p.lower :: p.upper :: rest, none, lift⟩ first ⟨p.upper :: rest, none, lift⟩)
    (hupper : Run step ⟨p.upper :: rest, none, lift⟩ second ⟨rest, none, lift⟩) :
    Run step ⟨p :: rest, none, lift⟩ (first ++ second) ⟨rest, none, lift⟩ := by
  have hsplit : step ⟨p :: rest, none, lift⟩ = .quiet ⟨p.lower :: p.upper :: rest, none, lift⟩ := by
    simp [step, hempty, hlarge, Piece.halves, Piece.lower, Piece.upper]
  exact .quiet hsplit (hlower.trans hupper)

/-- A number is among those that some small piece tries and accepts. -/
inductive Offers (x : QuadInt) : Piece K → Prop
  /-- In the piece itself. -/
  | small {p : Piece K} : p.isEmpty = false → p.isLarge = false → x ∈ (Leaf.ofPiece p).Ahead → Offers x p
  /-- In the lower half. -/
  | lower {p : Piece K} : p.isEmpty = false → p.isLarge = true → Offers x p.lower → Offers x p
  /-- In the upper half. -/
  | upper {p : Piece K} : p.isEmpty = false → p.isLarge = true → Offers x p.upper → Offers x p

theorem Offers.not_isEmpty {x : QuadInt} {p : Piece K} (h : Offers x p) : p.isEmpty = false := by
  cases h with
  | small hempty _ _ => exact hempty
  | lower hempty _ _ => exact hempty
  | upper hempty _ _ => exact hempty

/-- If splitting comes to an end, so does the enumeration of a piece, and it yields all that the piece offers. -/
theorem Settles.run {p : Piece K} (h : Settles p) (rest : List (Piece K)) (lift : Lift) :
    ∃ out, Run step ⟨p :: rest, none, lift⟩ out ⟨rest, none, lift⟩ ∧ ∀ x, Offers x p → lift.apply x ∈ out := by
  induction h generalizing rest with
  | empty hempty =>
    refine ⟨[], run_empty hempty rest lift, fun x hx => ?_⟩
    rw [hx.not_isEmpty] at hempty
    cases hempty
  | @small p hempty hlarge =>
    obtain ⟨out, hout⟩ := (Leaf.ofPiece p).exists_yields
    refine ⟨_, run_small hempty hlarge hout rest lift, fun x hx => List.mem_map_of_mem ?_⟩
    cases hx with
    | small _ _ hahead => exact Leaf.mem_of_ahead (UnitLog.lambdaPow_ne_zero _) hout x hahead
    | lower _ hlarge' => simp [hlarge] at hlarge'
    | upper _ hlarge' => simp [hlarge] at hlarge'
  | halve hempty hlarge _ _ ihl ihu =>
    obtain ⟨first, hfirst, hlower⟩ := ihl (_ :: rest)
    obtain ⟨second, hsecond, hupper⟩ := ihu rest
    refine ⟨_, run_halves hempty hlarge hfirst hsecond, fun x hx => List.mem_append.2 ?_⟩
    cases hx with
    | small _ hlarge' => simp [hlarge] at hlarge'
    | lower _ _ hx => exact .inl (hlower x hx)
    | upper _ _ hx => exact .inr (hupper x hx)

theorem settles_of_yields {s : State K} {out : List QuadInt} (h : Yields step s out) : ∀ p ∈ s.pieces, Settles p := by
  obtain ⟨t, hrun, hend⟩ := h
  induction hrun with
  | refl s =>
    rw [(step_done hend).2]
    exact fun p hp => absurd hp List.not_mem_nil
  | quiet hstep _ ih =>
    have ih := ih hend
    obtain ⟨l, _, ⟨_, rfl⟩ | ⟨l', _, rfl⟩⟩ |
      ⟨p, rest, _, hpieces, ⟨hempty, rfl⟩ | ⟨hempty, hlarge, rfl⟩ | ⟨hempty, hlarge, rfl⟩⟩ := step_quiet hstep
    · exact ih
    · exact ih
    · rw [hpieces]
      exact List.forall_mem_cons.2 ⟨.empty hempty, ih⟩
    · rw [hpieces]
      obtain ⟨hlower, hrest⟩ := List.forall_mem_cons.1 ih
      obtain ⟨hupper, hrest⟩ := List.forall_mem_cons.1 hrest
      exact List.forall_mem_cons.2 ⟨.halve hempty hlarge hlower hupper, hrest⟩
    · rw [hpieces]
      exact List.forall_mem_cons.2 ⟨.small hempty hlarge, ih⟩
  | found hstep _ ih =>
    obtain ⟨_, _, _, _, _, _, rfl⟩ := step_found hstep
    exact ih hend

/-- The enumeration ends exactly if splitting comes to an end. -/
theorem exists_yields_iff (i j : Interval K) (lift : Lift) :
    (∃ out, Yields step (withLift i j lift) out) ↔ Settles (⟨i, j, false⟩ : Piece K) := by
  constructor
  · rintro ⟨out, h⟩
    exact settles_of_yields h _ List.mem_cons_self
  · intro h
    obtain ⟨out, hrun, _⟩ := h.run [] lift
    exact ⟨out, _, hrun, rfl⟩

end CliffordT.Line

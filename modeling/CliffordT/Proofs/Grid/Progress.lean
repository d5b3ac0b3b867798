import Mathlib.Data.List.Nodup
import Mathlib.Data.Set.Basic
import Mathlib.Order.WellFounded
import CliffordT.Grid.Progress

/-!
Runs of an enumeration, of any length.

A run leads from a state through some yielded values to another state, and it ends where there is nothing more. What an
enumeration yields is read off a set of values that are still ahead of each state: a quiet step leaves it as it is,
and a step that yields a value takes that value out.
-/

namespace CliffordT.Progress

variable {σ α : Type} {step : σ → Progress σ α}

/-- Some steps lead from one state to another and yield these values on the way. -/
inductive Run (step : σ → Progress σ α) : σ → List α → σ → Prop
  /-- No step. -/
  | refl (s : σ) : Run step s [] s
  /-- A quiet step, and more. -/
  | quiet {s s' t : σ} {out : List α} : step s = .quiet s' → Run step s' out t → Run step s out t
  /-- A step that yields a value, and more. -/
  | found {s s' t : σ} {a : α} {out : List α} : step s = .found a s' → Run step s' out t → Run step s (a :: out) t

/-- The enumeration that starts in a state ends after these values. -/
def Yields (step : σ → Progress σ α) (s : σ) (out : List α) : Prop := ∃ t, Run step s out t ∧ step t = .done

/-- The enumeration that starts in a state comes to yield this value. -/
def Reaches (step : σ → Progress σ α) (s : σ) (a : α) : Prop := ∃ out t, Run step s out t ∧ a ∈ out

namespace Run

theorem trans {s t r : σ} {out more : List α} (h : Run step s out t) (h' : Run step t more r) :
    Run step s (out ++ more) r := by
  induction h with
  | refl s => exact h'
  | quiet hs _ ih => exact .quiet hs (ih h')
  | found hs _ ih => exact .found hs (ih h')

/-- If every yielded value was ahead and is not ahead any more, the values of a run are distinct, and they were ahead of
its start. -/
theorem nodup {I : σ → Prop} {ahead : σ → Set α}
    (hquiet : ∀ s s', I s → step s = .quiet s' → I s' ∧ ahead s' ⊆ ahead s)
    (hfound : ∀ s a s', I s → step s = .found a s' → I s' ∧ a ∈ ahead s ∧ ahead s' ⊆ ahead s \ {a})
    {s t : σ} {out : List α} (h : Run step s out t) (hs : I s) :
    out.Nodup ∧ (∀ a ∈ out, a ∈ ahead s) := by
  induction h with
  | refl s => exact ⟨List.nodup_nil, by simp⟩
  | quiet hstep _ ih =>
    obtain ⟨hI, hsub⟩ := hquiet _ _ hs hstep
    obtain ⟨hnodup, hmem⟩ := ih hI
    exact ⟨hnodup, fun a ha => hsub (hmem a ha)⟩
  | @found s s' t a out hstep _ ih =>
    obtain ⟨hI, ha, hsub⟩ := hfound _ _ _ hs hstep
    obtain ⟨hnodup, hmem⟩ := ih hI
    refine ⟨List.nodup_cons.2 ⟨fun hin => (hsub (hmem a hin)).2 rfl, hnodup⟩, ?_⟩
    rintro b hb
    rcases List.mem_cons.1 hb with rfl | hb
    · exact ha
    · exact (hsub (hmem b hb)).1

end Run

/-- If a step takes nothing but the yielded value out of what is ahead, and nothing is ahead of the end, then all that
was ahead is yielded. -/
theorem Yields.complete {I : σ → Prop} (ahead : σ → Set α)
    (hquiet : ∀ s s', I s → step s = .quiet s' → I s' ∧ ahead s ⊆ ahead s')
    (hfound : ∀ s a s', I s → step s = .found a s' → I s' ∧ ahead s ⊆ insert a (ahead s'))
    (hdone : ∀ s, I s → step s = .done → ahead s = ∅) {s : σ} {out : List α} (h : Yields step s out) (hs : I s) :
    ∀ a ∈ ahead s, a ∈ out := by
  obtain ⟨t, hrun, hend⟩ := h
  induction hrun with
  | refl s =>
    rw [hdone s hs hend]
    exact fun a ha => absurd ha (Set.notMem_empty a)
  | quiet hstep _ ih =>
    obtain ⟨hI, hsub⟩ := hquiet _ _ hs hstep
    exact fun a ha => ih hI hend a (hsub ha)
  | found hstep _ ih =>
    obtain ⟨hI, hsub⟩ := hfound _ _ _ hs hstep
    intro a ha
    rcases hsub ha with rfl | ha'
    · exact List.mem_cons_self
    · exact List.mem_cons_of_mem _ (ih hI hend a ha')

/-- An enumeration ends if every step makes something smaller that cannot get smaller for ever. -/
theorem exists_yields {β : Type} [LT β] [WellFoundedLT β] (measure : σ → β)
    (hquiet : ∀ s s', step s = .quiet s' → measure s' < measure s)
    (hfound : ∀ s a s', step s = .found a s' → measure s' < measure s) (s : σ) : ∃ out, Yields step s out := by
  induction s using (InvImage.wf measure wellFounded_lt).induction with
  | _ s ih =>
    cases hstep : step s with
    | done => exact ⟨[], s, .refl s, hstep⟩
    | quiet s' =>
      obtain ⟨out, t, hrun, hend⟩ := ih s' (hquiet _ _ hstep)
      exact ⟨out, t, .quiet hstep hrun, hend⟩
    | found a s' =>
      obtain ⟨out, t, hrun, hend⟩ := ih s' (hfound _ _ _ hstep)
      exact ⟨a :: out, t, .found hstep hrun, hend⟩

/-! ### Bounded runs -/

theorem next_spec (steps : ℕ) (s : σ) :
    match next step steps s with
    | .finished => Yields step s []
    | .value a t => Run step s [a] t
    | .interrupted t => Run step s [] t := by
  induction steps generalizing s with
  | zero => exact .refl s
  | succ steps ih =>
    rw [next]
    cases hs : step s with
    | done => exact ⟨s, .refl s, hs⟩
    | found a t => exact .found hs (.refl t)
    | quiet s' =>
      have h := ih s'
      dsimp only
      cases hnext : next step steps s' with
      | finished =>
        rw [hnext] at h
        obtain ⟨t, hrun, hend⟩ := h
        exact ⟨t, .quiet hs hrun, hend⟩
      | value a t =>
        rw [hnext] at h
        exact .quiet hs h
      | interrupted t =>
        rw [hnext] at h
        exact .quiet hs h

/-- The values that are taken are those of a run, and all of them if fewer were taken than asked for. -/
theorem take?_spec {limit : ℕ} {s : σ} {out : List α} (h : take? step limit s = some out) :
    (∃ t, Run step s out t) ∧ (out.length < limit → Yields step s out) := by
  induction limit generalizing s out with
  | zero =>
    obtain rfl := Option.some.inj h
    exact ⟨⟨s, .refl s⟩, fun hlt => absurd hlt (Nat.not_lt_zero _)⟩
  | succ limit ih =>
    rw [take?] at h
    have hnext := @next_spec _ _ step patience s
    split at h
    · next hfinished =>
      obtain rfl := Option.some.inj h
      rw [hfinished] at hnext
      exact ⟨⟨s, .refl s⟩, fun _ => hnext⟩
    · cases h
    · next a t hvalue =>
      rw [hvalue] at hnext
      obtain ⟨rest, hrest, rfl⟩ := Option.map_eq_some_iff.1 h
      obtain ⟨⟨e, hrun⟩, hend⟩ := ih hrest
      refine ⟨⟨e, hnext.trans hrun⟩, fun hlt => ?_⟩
      obtain ⟨r, hr, hdone⟩ := hend (by simpa using hlt)
      exact ⟨r, hnext.trans hr, hdone⟩

end CliffordT.Progress

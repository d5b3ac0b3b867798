import Mathlib
import CliffordT.Gate.Levels

/-!
Breadth-first search finds a nearest goal.

States that are alike must agree on the goal and have moves that are alike. Under that condition it does no harm
that only one of several states that are alike is kept: whenever a goal can be reached in at most `depth` moves,
the search returns a goal, by a path of moves that is no longer.

Searches over different states give results that correspond, if a map goes through all that they look at.
-/

namespace CliffordT.Levels

variable {σ : Type} {goal : σ → Bool} {moves : σ → List σ} {same : σ → σ → Bool}

/-- A path of the given number of moves. -/
inductive Walk (moves : σ → List σ) : ℕ → σ → σ → Prop
  | refl (s : σ) : Walk moves 0 s s
  | head {n : ℕ} {s t r : σ} (move : t ∈ moves s) (rest : Walk moves n t r) : Walk moves (n + 1) s r

theorem Walk.snoc {n : ℕ} {s t r : σ} (h : Walk moves n s t) (move : r ∈ moves t) : Walk moves (n + 1) s r := by
  induction h with
  | refl => exact .head move (.refl r)
  | head first _ ih => exact .head first (ih move)

/-- What every move preserves holds at the end of a path. -/
theorem Walk.preserves {P : σ → Prop} (hP : ∀ s, P s → ∀ t ∈ moves s, P t) {n : ℕ} {s r : σ}
    (h : Walk moves n s r) (hs : P s) : P r := by
  induction h with
  | refl => exact hs
  | head move _ ih => exact ih (hP _ hs _ move)

/-- States that are alike agree on the goal and on their moves. -/
structure Alike (goal : σ → Bool) (moves : σ → List σ) (same : σ → σ → Bool) : Prop where
  refl : ∀ s, same s s = true
  goal_eq : ∀ s t, same s t = true → goal s = goal t
  moves_same : ∀ s t, same s t = true → ∀ s' ∈ moves s, ∃ t' ∈ moves t, same s' t' = true

theorem Walk.transfer (ha : Alike goal moves same) {n : ℕ} {s r : σ} (h : Walk moves n s r) {s' : σ}
    (hs : same s s' = true) : ∃ r', Walk moves n s' r' ∧ same r r' = true := by
  induction h generalizing s' with
  | refl => exact ⟨s', .refl s', hs⟩
  | head move _ ih =>
    obtain ⟨t', ht', hsame⟩ := ha.moves_same _ _ hs _ move
    obtain ⟨r', hr', hrr'⟩ := ih hsame
    exact ⟨r', .head ht' hr', hrr'⟩

/-- Every candidate is like one of the states that have been seen in the end. -/
theorem insertNew_spec (ha : Alike goal moves same) (cs seen fresh : List σ) :
    ∃ added, insertNew same cs seen fresh = (added ++ seen, added ++ fresh) ∧ (∀ c ∈ added, c ∈ cs) ∧
      ∀ c ∈ cs, ∃ r ∈ added ++ seen, same c r = true := by
  induction cs generalizing seen fresh with
  | nil => exact ⟨[], rfl, by simp, by simp⟩
  | cons c cs ih =>
    by_cases hc : seen.any (same c) = true
    · obtain ⟨added, heq, hsub, hrep⟩ := ih seen fresh
      refine ⟨added, ?_, fun d hd => List.mem_cons_of_mem c (hsub d hd), ?_⟩
      · rw [insertNew, if_pos hc, heq]
      · intro d hd
        rcases List.mem_cons.1 hd with rfl | hd
        · obtain ⟨r, hr, hsame⟩ := List.any_eq_true.1 hc
          exact ⟨r, List.mem_append_right added hr, hsame⟩
        · exact hrep d hd
    · obtain ⟨added, heq, hsub, hrep⟩ := ih (c :: seen) (c :: fresh)
      refine ⟨added ++ [c], ?_, ?_, ?_⟩
      · rw [insertNew, if_neg hc, heq]
        simp
      · intro d hd
        rcases List.mem_append.1 hd with hd | hd
        · exact List.mem_cons_of_mem c (hsub d hd)
        · rw [List.mem_singleton.1 hd]
          exact List.mem_cons_self
      · intro d hd
        rw [List.append_assoc]
        rcases List.mem_cons.1 hd with rfl | hd
        · exact ⟨d, by simp, ha.refl d⟩
        · exact hrep d hd

/-- The states seen are those of the level and others that have been expanded and are no goals. -/
structure Frontier (goal : σ → Bool) (moves : σ → List σ) (same : σ → σ → Bool) (seen level : List σ) : Prop where
  subset : ∀ s ∈ level, s ∈ seen
  expanded : ∀ s ∈ seen, s ∈ level ∨ goal s = false ∧ ∀ t ∈ moves s, ∃ r ∈ seen, same t r = true

/-- A goal that can be reached from a state seen can be reached as fast from the level. -/
theorem Frontier.nearest (ha : Alike goal moves same) {seen level : List σ}
    (hf : Frontier goal moves same seen level) {n : ℕ} {s r : σ} (hs : s ∈ seen) (hwalk : Walk moves n s r)
    (hr : goal r = true) : ∃ m ≤ n, ∃ s' ∈ level, ∃ r', Walk moves m s' r' ∧ goal r' = true := by
  induction n generalizing s r with
  | zero =>
    cases hwalk
    rcases hf.expanded s hs with hs | ⟨hs, -⟩
    · exact ⟨0, le_rfl, s, hs, s, .refl s, hr⟩
    · rw [hr] at hs
      cases hs
  | succ n ih =>
    rcases hf.expanded s hs with hs | ⟨-, hmoves⟩
    · exact ⟨n + 1, le_rfl, s, hs, r, hwalk, hr⟩
    · cases hwalk with
      | head move rest =>
        obtain ⟨t', ht', hsame⟩ := hmoves _ move
        obtain ⟨r', hwalk', hrr'⟩ := rest.transfer ha hsame
        obtain ⟨m, hm, hnear⟩ := ih ht' hwalk' ((ha.goal_eq r r' hrr').symm.trans hr)
        exact ⟨m, hm.trans n.le_succ, hnear⟩

/-- The next level is a frontier again when there is no goal in this one. -/
theorem Frontier.next {seen level added : List σ} (hf : Frontier goal moves same seen level)
    (hgoal : ∀ s ∈ level, goal s = false)
    (hrep : ∀ c ∈ level.flatMap moves, ∃ r ∈ added ++ seen, same c r = true) :
    Frontier goal moves same (added ++ seen) added.reverse := by
  constructor
  · intro s hs
    exact List.mem_append_left seen (List.mem_reverse.1 hs)
  · intro s hs
    rcases List.mem_append.1 hs with hs | hs
    · exact .inl (List.mem_reverse.2 hs)
    rcases hf.expanded s hs with hs | ⟨hs, hmoves⟩
    · exact .inr ⟨hgoal s hs, fun t ht => hrep t (List.mem_flatMap.2 ⟨s, hs, ht⟩)⟩
    · refine .inr ⟨hs, fun t ht => ?_⟩
      obtain ⟨r, hr, hsame⟩ := hmoves t ht
      exact ⟨r, List.mem_append_right added hr, hsame⟩

/-- A goal in the level is found at once. -/
theorem find_of_level (depth n : ℕ) {seen level : List σ} {found : σ} (h : level.find? goal = some found) :
    find goal moves same depth seen level = some found ∧ goal found = true ∧
      ∃ k ≤ n, ∃ l ∈ level, Walk moves k l found := by
  refine ⟨?_, List.find?_some h, 0, n.zero_le, found, List.mem_of_find?_eq_some h, .refl found⟩
  cases depth <;> rw [find, h]

theorem find_of_frontier (ha : Alike goal moves same) {depth : ℕ} {seen level : List σ}
    (hf : Frontier goal moves same seen level) {n : ℕ} {s r : σ} (hs : s ∈ seen) (hwalk : Walk moves n s r)
    (hr : goal r = true) (hn : n ≤ depth) :
    ∃ found, find goal moves same depth seen level = some found ∧ goal found = true ∧
      ∃ k ≤ n, ∃ l ∈ level, Walk moves k l found := by
  induction depth generalizing seen level n s r with
  | zero =>
    obtain ⟨m, hm, l, hl, r', hwalk', hr'⟩ := hf.nearest ha hs hwalk hr
    obtain rfl : m = 0 := by omega
    cases hwalk'
    cases hfind : level.find? goal with
    | none =>
      rw [List.find?_eq_none] at hfind
      exact absurd hr' (hfind l hl)
    | some found => exact ⟨found, find_of_level _ n hfind⟩
  | succ depth ih =>
    obtain ⟨m, hm, l, hl, r', hwalk', hr'⟩ := hf.nearest ha hs hwalk hr
    cases hfind : level.find? goal with
    | some found => exact ⟨found, find_of_level _ n hfind⟩
    | none =>
      have hgoal : ∀ s ∈ level, goal s = false := by
        intro s hs
        simpa using List.find?_eq_none.1 hfind s hs
      cases hwalk' with
      | refl =>
        rw [hgoal l hl] at hr'
        cases hr'
      | @head k _ t _ move rest =>
        -- The first step of the path may lead to a state that is left out of the next level; then one like it has been seen,
        -- and the rest of the path is transferred to that one.
        obtain ⟨added, heq, hsub, hrep⟩ := insertNew_spec ha (level.flatMap moves) seen []
        obtain ⟨t', ht', hsame⟩ := hrep t (List.mem_flatMap.2 ⟨l, hl, move⟩)
        obtain ⟨r'', hwalk'', hrr⟩ := rest.transfer ha hsame
        obtain ⟨found, hfound, hg, i, hi, l', hl', hpath⟩ := ih (hf.next hgoal hrep) ht' hwalk''
          ((ha.goal_eq _ _ hrr).symm.trans hr') (by omega)
        obtain ⟨p, hp, hmove⟩ := List.mem_flatMap.1 (hsub l' (List.mem_reverse.1 hl'))
        refine ⟨found, ?_, hg, i + 1, by omega, p, hp, .head hmove hpath⟩
        rw [find, hfind, heq, List.append_nil]
        exact hfound

/-- The search from one state finds a goal whenever there is one within its depth, by a path that is not longer
than the given one. -/
theorem find_of_walk (ha : Alike goal moves same) {depth n : ℕ} {start r : σ} (hwalk : Walk moves n start r)
    (hr : goal r = true) (hn : n ≤ depth) :
    ∃ found, find goal moves same depth [start] [start] = some found ∧ goal found = true ∧
      ∃ k ≤ n, Walk moves k start found := by
  have hf : Frontier goal moves same [start] [start] := ⟨fun s hs => hs, fun s hs => .inl hs⟩
  obtain ⟨found, hfound, hg, k, hk, l, hl, hpath⟩ :=
    find_of_frontier ha hf (List.mem_singleton.2 rfl) hwalk hr hn
  rw [List.mem_singleton.1 hl] at hpath
  exact ⟨found, hfound, hg, k, hk, hpath⟩

/-! ### Searches that correspond -/

variable {τ : Type} {goal' : τ → Bool} {moves' : τ → List τ} {same' : τ → τ → Bool} {f : σ → τ} {P : ℕ → σ → Prop}

/-- A map between the states of two searches that goes through goals and moves, for the states from which a number of moves can
be made. -/
structure Corresponds (goal : σ → Bool) (moves : σ → List σ) (same : σ → σ → Bool) (goal' : τ → Bool) (moves' : τ → List τ)
    (same' : τ → τ → Bool) (f : σ → τ) (P : ℕ → σ → Prop) : Prop where
  same_eq : ∀ s t, same' (f s) (f t) = same s t
  goal_eq : ∀ n s, P n s → goal' (f s) = goal s
  moves_eq : ∀ n s, P (n + 1) s → moves' (f s) = (moves s).map f
  moves : ∀ n s, P (n + 1) s → ∀ t ∈ moves s, P n t

theorem insertNew_map (hsame : ∀ s t, same' (f s) (f t) = same s t) (cs seen fresh : List σ) :
    insertNew same' (cs.map f) (seen.map f) (fresh.map f) =
      ((insertNew same cs seen fresh).1.map f, (insertNew same cs seen fresh).2.map f) := by
  induction cs generalizing seen fresh with
  | nil => rfl
  | cons c cs ih =>
    have hany : (seen.map f).any (same' (f c)) = seen.any (same c) := by
      rw [List.any_map]
      exact congrArg seen.any (funext fun s => hsame c s)
    rw [List.map_cons, insertNew, insertNew, hany]
    split
    · exact ih seen fresh
    · exact ih (c :: seen) (c :: fresh)

theorem mem_of_mem_insertNew {cs seen fresh : List σ} {s : σ} (h : s ∈ (insertNew same cs seen fresh).2) :
    s ∈ cs ∨ s ∈ fresh := by
  induction cs generalizing seen fresh with
  | nil => exact .inr h
  | cons c cs ih =>
    rw [insertNew] at h
    split at h
    · exact (ih h).imp_left (List.mem_cons_of_mem c)
    · obtain h | h := ih h
      · exact .inl (List.mem_cons_of_mem c h)
      · obtain rfl | h := List.mem_cons.1 h
        · exact .inl List.mem_cons_self
        · exact .inr h

/-- Searches that correspond find states that correspond. -/
theorem find_map (h : Corresponds goal moves same goal' moves' same' f P) (depth : ℕ) (seen level : List σ)
    (hlevel : ∀ s ∈ level, P depth s) :
    find goal' moves' same' depth (seen.map f) (level.map f) = (find goal moves same depth seen level).map f := by
  have hfind {n : ℕ} {level : List σ} (hlevel : ∀ s ∈ level, P n s) :
      (level.map f).find? goal' = (level.find? goal).map f := by
    induction level with
    | nil => rfl
    | cons s level ih =>
      rw [List.map_cons, List.find?_cons, List.find?_cons, h.goal_eq n s (hlevel s List.mem_cons_self)]
      split
      · rfl
      · exact ih fun t ht => hlevel t (List.mem_cons_of_mem s ht)
  induction depth generalizing seen level with
  | zero =>
    rw [find, find, hfind hlevel]
    cases level.find? goal <;> rfl
  | succ depth ih =>
    have hmoves : (level.map f).flatMap moves' = (level.flatMap moves).map f := by
      rw [List.flatMap_map, List.map_flatMap]
      exact List.flatMap_congr fun s hs => h.moves_eq depth s (hlevel s hs)
    rw [find, find, hfind hlevel]
    cases level.find? goal with
    | some found => rfl
    | none =>
      have hinsert := insertNew_map h.same_eq (level.flatMap moves) seen []
      rw [← hmoves, List.map_nil] at hinsert
      simp only [Option.map_none, hinsert, ← List.map_reverse]
      refine ih _ _ fun t ht => ?_
      obtain ht | ht := mem_of_mem_insertNew (List.mem_reverse.1 ht)
      · obtain ⟨s, hs, ht⟩ := List.mem_flatMap.1 ht
        exact h.moves depth s (hlevel s hs) t ht
      · exact absurd ht List.not_mem_nil

end CliffordT.Levels

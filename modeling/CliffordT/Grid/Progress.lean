import CliffordT.Number.Bits

/-!
Enumerations that run step by step.

One step of an enumeration ends it, changes its state quietly, or yields a value. Runs are bounded by a number of steps,
and a run that reaches its bound is told apart from one that reaches the end.
-/

namespace CliffordT

/-- What one step of an enumeration does. -/
inductive Progress (σ α : Type) where
  /-- There is nothing more. -/
  | done
  /-- The enumeration goes on from another state. -/
  | quiet (state : σ)
  /-- A value is yielded, and the enumeration goes on from another state. -/
  | found (value : α) (state : σ)
  deriving Repr

namespace Progress

variable {σ α : Type}

/-- How a bounded run ends. -/
inductive Outcome (σ α : Type) where
  /-- There is nothing more. -/
  | finished
  /-- The next value, and the state after it. -/
  | value (a : α) (state : σ)
  /-- The bound was reached in this state. -/
  | interrupted (state : σ)
  deriving Repr

/-- Runs to the next value, for at most a number of steps. -/
def next (step : σ → Progress σ α) : (steps : Nat) → σ → Outcome σ α
  | 0, s => .interrupted s
  | steps + 1, s =>
    match step s with
    | .done => .finished
    | .quiet s => next step steps s
    | .found a s => .value a s

/-- A number of steps that no machine takes. -/
def patience : Nat := twoPow 62

/-- The first values, at most `limit` of them; nothing if the run is interrupted. -/
def take? (step : σ → Progress σ α) : (limit : Nat) → σ → Option (List α)
  | 0, _ => some []
  | limit + 1, s =>
    match next step patience s with
    | .finished => some []
    | .interrupted _ => none
    | .value a s => (take? step limit s).map (a :: ·)

end Progress

end CliffordT

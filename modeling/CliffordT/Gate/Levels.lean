/-!
Breadth-first search, level by level.

A level is the list of new states in the order in which they were found. The goal is looked for in a whole level
before any state of it is expanded, so the first goal found is reached by a shortest path.
-/

namespace CliffordT.Levels

variable {σ : Type}

/-- Adds the candidates that are not like any state seen so far; both lists grow at the front. -/
def insertNew (same : σ → σ → Bool) : List σ → List σ → List σ → List σ × List σ
  | [], seen, fresh => (seen, fresh)
  | c :: cs, seen, fresh =>
    if seen.any (same c) then insertNew same cs seen fresh
    else insertNew same cs (c :: seen) (c :: fresh)

/-- The first goal in the level or in one of the next `depth` levels. -/
def find (goal : σ → Bool) (moves : σ → List σ) (same : σ → σ → Bool) :
    (depth : Nat) → (seen level : List σ) → Option σ
  | depth, seen, level =>
    match level.find? goal with
    | some s => some s
    | none =>
      match depth with
      | 0 => none
      | depth + 1 =>
        let (seen, fresh) := insertNew same (level.flatMap moves) seen []
        find goal moves same depth seen fresh.reverse

end CliffordT.Levels

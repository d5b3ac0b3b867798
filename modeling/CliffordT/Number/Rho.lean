import CliffordT.Number.Words

/-!
Brent's variant of Pollard's rho method, under a budget of iterations.

The differences of one batch are multiplied together and share one greatest common divisor. If that jumps from one
to the number itself, the batch is walked again one step at a time.
-/

namespace CliffordT.Rho

/-- The most steps that share one greatest common divisor. -/
def batchSize : Nat := 128

/-- One step of the pseudo-random walk modulo `n`. -/
def step (n c y : Nat) : Nat := (y * y + c) % n

/-- The distance of two numbers. -/
def distance (x y : Nat) : Nat := if x < y then y - x else x - y

/-- A number of steps from `y`, multiplying up the distances from `x`: the last position and the product. -/
def block (n c x : Nat) : Nat → Nat → Nat → Nat × Nat
  | 0, y, q => (y, q)
  | k + 1, y, q =>
    let y := step n c y
    block n c x k y (q * distance x y % n)

/-- How one walk ends. -/
inductive Outcome where
  /-- The budget is used up. -/
  | spent
  /-- A common divisor other than one, and the budget that is left. -/
  | divisor (g : Nat) (left : Nat)
  deriving DecidableEq, Repr

/-- Walks from `y` one step at a time until the distance from `x` has a common divisor with `n`. -/
def retrace (n c x : Nat) : Nat → Nat → Outcome
  | 0, _ => .spent
  | left + 1, y =>
    let y := step n c y
    let g := Nat.gcd (distance x y) n
    if g = 1 then retrace n c x left y else .divisor g left

/-- One walk. The point `x` is left behind every time the stride `r` doubles, `k` counts the steps since,
and `q` is the running product. -/
def walk (n c : Nat) (budget x y q r k : Nat) : Outcome :=
  let steps := max 1 (min batchSize (r - k))
  if budget = 0 then .spent
  else
    let (y', q') := block n c x steps y q
    let g := Nat.gcd q' n
    let left := budget - steps
    if g = 1 then
      if left = 0 then .spent
      else if k + steps < r then walk n c left x y' q' r (k + steps)
      else walk n c left y' (Nat.repeat (step n c) (2 * r) y') q' (2 * r) 0
    else if g = n then retrace n c x left y
    else .divisor g left
termination_by budget
decreasing_by all_goals omega

/-- The start of a walk from `y`: the first stride is one step long. -/
def start (n c budget y : Nat) : Outcome := walk n c budget y (step n c y) 1 1 0

/-- A common divisor of `n` other than one and `n`, from walks with random constants until the budget is used
up; `rounds` bounds the number of walks and the budget is a bound that suffices. -/
def attempts (n : Nat) : (rounds budget : Nat) → Words → Option Nat × Words
  | 0, _, w => (none, w)
  | rounds + 1, budget, w =>
    if budget = 0 then (none, w)
    else
      let (c, w) := w.below (n - 1)
      let (y, w) := w.below n
      match start n (c + 1) budget y with
      | .spent => (none, w)
      | .divisor g left => if g = n then attempts n rounds left w else (some g, w)

/-- A proper divisor of a composite number, or none if the budget is used up first. -/
def divisor? (n budget : Nat) (w : Words) : Option Nat × Words :=
  if n % 2 = 0 then (some 2, w) else attempts n budget budget w

end CliffordT.Rho

import CliffordT.Working.Scalar

/-!
Closed intervals of scalars. An interval whose upper end is below its lower end is empty.
-/

namespace CliffordT

/-- The interval from `lo` to `hi`. -/
structure Interval (K : Type) where
  /-- The lower end. -/
  lo : K
  /-- The upper end. -/
  hi : K
  deriving Repr

namespace Interval

variable {K : Type} [Scalar K]

open Scalar

/-- Whether no number lies in the interval. -/
def isEmpty (i : Interval K) : Bool := less i.hi i.lo

/-- The length. -/
def width (i : Interval K) : K := i.hi - i.lo

/-- The number halfway between the ends. -/
def midpoint (i : Interval K) : K := half (i.lo + i.hi)

/-- Whether a number lies in the interval. -/
def contains (i : Interval K) (x : K) : Bool := atMost i.lo x && atMost x i.hi

/-- Moves both ends outwards. -/
def fatten (i : Interval K) (amount : K) : Interval K := ⟨i.lo - amount, i.hi + amount⟩

/-- Multiplies every number by a factor; a negative factor exchanges the ends. -/
def scale (i : Interval K) (factor : K) : Interval K :=
  let a := i.lo * factor
  let b := i.hi * factor
  if isNegative factor then ⟨b, a⟩ else ⟨a, b⟩

/-- Adds an offset to every number. -/
def shift (i : Interval K) (offset : K) : Interval K := ⟨i.lo + offset, i.hi + offset⟩

/-- The half up to the midpoint. -/
def lowerHalf (i : Interval K) : Interval K := ⟨i.lo, i.midpoint⟩

/-- The half from the midpoint on. -/
def upperHalf (i : Interval K) : Interval K := ⟨i.midpoint, i.hi⟩

end Interval

/-- An interval for each coordinate of the plane. -/
structure Box (K : Type) where
  /-- The first coordinates. -/
  x : Interval K
  /-- The second coordinates. -/
  y : Interval K
  deriving Repr

end CliffordT

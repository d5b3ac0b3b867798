/-!
Division with a nearest quotient, and the Euclidean algorithm over any ring that has one.

A ring takes part by giving a size and a division with remainder. The algorithm goes on only while
the size of the remainder shrinks, so it ends whatever division it is given; for the rings of this
library the remainder always shrinks and the other exit is never taken.
-/

namespace CliffordT

/-- The integer nearest to `a / n`, the upper one of two at equal distance; `n` is not zero. -/
def nearestQuotient (a n : Int) : Int :=
  if n < 0 then (2 * (-a) - n).fdiv (2 * (-n)) else (2 * a + n).fdiv (2 * n)

/-- A ring with a division whose remainder is meant to be smaller than the divisor. -/
class EuclideanDivision (R : Type) extends Zero R where
  /-- A natural number that is zero at zero only. -/
  size : R → Nat
  /-- Quotient and remainder, absent for a zero divisor. -/
  divRem? : R → R → Option (R × R)

namespace EuclideanDivision

variable {R : Type} [EuclideanDivision R]

/-- The quotient of `x` by `y` when `y` divides `x`. -/
def exactQuotient? [DecidableEq R] (x y : R) : Option R :=
  match divRem? x y with
  | some (q, r) => if r = 0 then some q else none
  | none => none

/-- The last nonzero remainder of the Euclidean algorithm, a greatest common divisor up to a unit. -/
def gcd (x y : R) : R :=
  match divRem? x y with
  | none => x
  | some (_, r) => if size r < size y then gcd y r else x
termination_by size y

end EuclideanDivision

end CliffordT

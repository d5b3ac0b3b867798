import CliffordT.Working.Scalar

/-!
Real roots of quadratic polynomials, without cancellation.
-/

namespace CliffordT

open Scalar

/-- The roots of `a t² + b t + c` in increasing order, if `a` is positive and the roots are real. One root is found with a
sum of numbers of equal sign, the other from the product of the roots. -/
def quadraticRoots? {K : Type} [Scalar K] (a b c : K) : Option (K × K) :=
  if !isPositive a then none
  else
    let discriminant := square b - scale (a * c) 4
    if isNegative discriminant then none
    else
      let s := sqrt discriminant
      let q := if isNegative b then half (s - b) else -half (b + s)
      if isZero q then some (0, 0)
      else
        let r₁ := q / a
        let r₂ := c / q
        if atMost r₁ r₂ then some (r₁, r₂) else some (r₂, r₁)

end CliffordT

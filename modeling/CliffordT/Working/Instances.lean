import CliffordT.Failure
import CliffordT.Working.Coarse
import CliffordT.Working.Scalar
import CliffordT.Working.Trig

/-!
Numbers of a working precision as scalars.

The instance carries the constants of the precision, so they are computed once where a precision is chosen.
-/

namespace CliffordT

/-- Scalars that can be computed with: integer parts, coarse values, and the error granted to short computations. -/
class NumericScalar (K : Type) extends Scalar K where
  /-- The largest integer at most a number. -/
  floor : K → Int
  /-- The smallest integer at least a number. -/
  ceil : K → Int
  /-- The coarse value. -/
  coarse : K → Coarse
  /-- The coarse logarithm to base two. -/
  log2 : K → Coarse
  /-- The error granted to a short computation with numbers of size one. -/
  tolerance : K

instance (p : Nat) : Scalar (Approx p) where
  ofInt := Approx.ofInt
  scale := Approx.scale
  shift := Approx.shift
  sqrt := Approx.sqrt
  sign := Approx.sign
  order := Approx.order
  rootTwo := Approx.rootTwo
  invRootTwo := Approx.invRootTwo
  pi := Approx.pi
  sinCos := Approx.sinCos

instance (p : Nat) : NumericScalar (Approx p) where
  floor := Approx.floor
  ceil := Approx.ceil
  coarse := Approx.toCoarse
  log2 := Approx.logCoarse
  tolerance := Approx.tolerance

/-- Compares two numbers, refusing to decide when they are within the granted error of each other. The error grows with
the size of the numbers. -/
def decideOrder {K : Type} [NumericScalar K] (digits : Nat) (x y : K) (decision : String) :
    Except Failure Ordering :=
  let difference := x - y
  let size := Scalar.larger (Scalar.larger 1 (Scalar.magnitude x)) (Scalar.magnitude y)
  if Scalar.atMost (Scalar.magnitude difference) (NumericScalar.tolerance * size) then
    .error (.imprecise digits decision)
  else .ok (Scalar.sign difference)

end CliffordT

import CliffordT.Failure
import CliffordT.Working.Scalar

/-!
Division of scalars that may be zero.
-/

namespace CliffordT.Scalar

/-- The quotient, which is undefined for an exact zero divisor. -/
def quotient {K : Type} [Scalar K] (x y : K) : Except Failure K :=
  if isZero y then .error .undefined else .ok (x / y)

end CliffordT.Scalar

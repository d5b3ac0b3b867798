import CliffordT.Literal.Reader

/-!
What a search for a rotation is asked to do: the angle, the tolerance, and the limits of the search.
-/

namespace CliffordT

/-- A request for a word of gates that is close to the rotation by an angle about the third axis. -/
structure Options where
  /-- The angle. -/
  theta : Literal
  /-- The tolerance, in operator norm. -/
  epsilon : Literal
  /-- The working precision in decimal digits, if it is not to be derived from the request. -/
  digits : Option Nat
  /-- The budget for every composite number that has to be factored. -/
  effort : Nat
  /-- The number of candidates given up for lack of budget after which the budget is doubled. -/
  growthThreshold : Nat
  /-- The largest denominator exponent. -/
  maxExponent : Nat
  /-- The number of candidates after which the budget is reconsidered. -/
  batchSize : Nat
  /-- The seed of the random words. -/
  seed : UInt64
  /-- How often a comparison too close to call is repeated at twice the digits. -/
  retries : Nat
  /-- Whether the finished word is checked against the target. -/
  verify : Bool
  deriving DecidableEq, Repr

namespace Options

/-- A request with the usual limits. -/
def ofLiterals (theta epsilon : Literal) : Options where
  theta := theta
  epsilon := epsilon
  digits := none
  effort := 25000
  growthThreshold := 16
  maxExponent := 400
  batchSize := 8
  seed := 1234
  retries := 3
  verify := true

/-- A request with the usual limits, from two written literals. -/
def ofTexts (theta epsilon : String) : Except Failure Options := do
  let theta ← Literal.ofText theta
  let epsilon ← Literal.ofText epsilon
  return ofLiterals theta epsilon

/-- A request with the usual limits, from two floating-point numbers. -/
def ofDoubles (theta epsilon : UInt64) : Except Failure Options := do
  let theta ← Literal.ofDouble theta
  let epsilon ← Literal.ofDouble epsilon
  return ofLiterals theta epsilon

/-- Refuses requests that no search can satisfy. -/
def validate (o : Options) : Except Failure Unit :=
  if !o.epsilon.isOpenUnit then .error (.domain (.tolerance o.epsilon.text))
  else if o.batchSize = 0 then .error (.domain .emptyBatch)
  else if o.effort = 0 then .error (.domain .noEffort)
  else .ok ()

/-- The working precision: the one asked for, or one derived from the tolerance and widened by the digits that are
lost when the angle is reduced. -/
def precision (o : Options) : Precision :=
  match o.digits with
  | some digits => .ofDigits digits
  | none => (Precision.forTolerance o.epsilon.fractionDigits).widened o.theta.magnitudeDigits

end Options

end CliffordT

import CliffordT.Plane.Ellipse
import CliffordT.Plane.Operator
import CliffordT.Working.Instances

/-!
Making a pair of ellipses upright.

A linear map `G` acts on the first ellipse and its conjugate on the second. Each round looks at the shapes of the two
forms, brought to determinant one, and picks an elementary map that lowers the skew, the sum of the squares of the
off-diagonal entries. The rounds end when the skew is small; the boxes of both ellipses are
then not much larger than the ellipses.

The choice needs sizes only and is made with coarse numbers. It is written over any numbers with the operations of
`StepNumber`.
-/

namespace CliffordT

/-- Numbers by which a step is chosen. -/
class StepNumber (C : Type) extends Add C, Sub C, Mul C where
  /-- An integer. -/
  ofInt : Int → C
  /-- A number of tenths. -/
  tenths : Int → C
  /-- Half of a number. -/
  half : C → C
  /-- The quotient by `√2`. -/
  overRootTwo : C → C
  /-- The power of `λ` with a given exponent. -/
  lambdaPower : C → C
  /-- Whether the first number is less than the second. -/
  less : C → C → Bool
  /-- Whether the first number is at most the second. -/
  atMost : C → C → Bool
  /-- The smaller of two numbers. -/
  smaller : C → C → C
  /-- The largest integer at most a number, as far as shifts can go. -/
  floorWord : C → Int
  /-- The largest integer at most a number, or the name of a number that has none. -/
  floor : C → Except String Int

instance : StepNumber Coarse where
  mul
    | .finite x, .finite y => .finite (x * y)
    | _, _ => .undefined
  ofInt := Coarse.ofInt
  tenths n := .finite (Approx.ratio n 10)
  half
    | .finite x => .finite (x.shift (-1))
    | x => x
  overRootTwo x := x.dividedBy (Approx.sqrt ⟨2, 0⟩)
  lambdaPower
    | .finite x =>
      match LambdaPower.value? x with
      | some y => .finite y
      | none => .infinite false
    | .infinite s => if s then .finite 0 else .infinite false
    | .undefined => .undefined
  less := Coarse.less
  atMost := Coarse.atMost
  smaller := Coarse.smaller
  floorWord := Coarse.floorWord
  floor
    | .finite x => .ok x.floor
    | x => .error x.nonFiniteName

/-- What the choice of a step sees of a form `[[e λ^-z, b], [b, e λ^z]]` of determinant one. -/
structure Shape (C : Type) where
  /-- The off-diagonal entry. -/
  b : C
  /-- Half the logarithm to base `λ` of the ratio of the diagonal entries. -/
  z : C
  /-- The sign of the off-diagonal entry. -/
  sign : Ordering
  deriving Repr

namespace Shape

/-- The shape of an ellipse. -/
def ofEllipse {K : Type} [NumericScalar K] (e : Ellipse K) : Shape Coarse where
  b := NumericScalar.coarse e.xy
  z := (NumericScalar.log2 e.yy - NumericScalar.log2 e.xx).dividedBy (LambdaPower.log2Base.shift 1)
  sign := Scalar.sign e.xy

variable {C : Type} [StepNumber C]

open StepNumber

/-- The sum of the squares of the off-diagonal entries. -/
def skew (s t : Shape C) : C := s.b * s.b + t.b * t.b

/-- Whether a number lies between two numbers of tenths. -/
def within (x : C) (lo hi : Int) : Bool := atMost (tenths lo) x && atMost x (tenths hi)

/-- The shift that brings the difference `ζ - z` of the biases into the interval from minus one to one; none if it is
there already. -/
def shiftFor (s t : Shape C) : Int :=
  let bias := t.z - s.z
  if less (ofInt 1) bias || less bias (ofInt (-1)) then floorWord (half (ofInt 1 - bias)) else 0

/-- The exponent of a shear: the integer part of a number, but at least one. -/
def shearExponent (x : C) : Except Failure Int :=
  match floor x with
  | .ok n => .ok (max n 1)
  | .error name => .error (.broken (.stepOverflow name))

/-- The step for two shifted shapes with biases `z` and `ζ`, the second off-diagonal entry not being negative. -/
def stepFor (z zeta : C) (negative : Bool) : Except Failure Elementary :=
  if within z (-8) 8 && within zeta (-8) 8 then .ok .R
  else if negative then
    if atMost (tenths (-2)) z && atMost (tenths (-2)) zeta then
      (shearExponent (overRootTwo (lambdaPower (smaller z zeta)))).map .B
    else .error (.broken .noStep)
  else if atMost z (tenths 3) && atMost (tenths 8) zeta then .ok .K
  else if atMost (tenths 3) z && atMost (tenths 3) zeta then
    (shearExponent (half (lambdaPower (smaller z zeta)))).map .A
  else if atMost (tenths 8) z && atMost zeta (tenths 3) then .ok .KBullet
  else .error (.broken .noStep)

/-- The skew at or below which a pair of ellipses counts as upright. -/
def skewLimit : Int := 15

/-- The elementary map and the shift that lower the skew of a pair, or none if it is upright. A shift by `k` takes `k` from
the first bias and gives it to the second, and an odd shift changes the sign of the second off-diagonal entry. -/
def step? (s t : Shape C) : Except Failure (Option (Elementary × Int)) :=
  if atMost (skew s t) (ofInt skewLimit) then .ok none
  else
    let k := shiftFor s t
    let z := s.z - ofInt k
    let zeta := t.z + ofInt k
    let betaSign := if k % 2 = 1 then t.sign.swap else t.sign
    if betaSign = .lt then .ok (some (.Z, k))
    else if less (z + zeta) (ofInt 0) then .ok (some (.X, k))
    else (stepFor z zeta (s.sign = .lt)).map fun g => some (g, k)

end Shape

/-- A linear map that makes two ellipses upright. -/
structure UprightPair (K : Type) (E : Type := UInt32) where
  /-- The map: the preimages under it and under its conjugate are upright. -/
  op : PlaneOp E
  /-- The box of the preimage of the first ellipse. -/
  first : Box K
  /-- The box of the preimage of the second ellipse. -/
  second : Box K
  /-- The number of rounds taken. -/
  steps : Nat

namespace UprightPair

/-- The preimages of two ellipses under a map and its conjugate. -/
def preimages {K E : Type} [Scalar K] [Exponent E] (a b : Ellipse K) (g : PlaneOp E) : Except Failure (Ellipse K × Ellipse K) := do
  let inv ← g.inverse
  let gb := g.bullet
  let invb ← gb.inverse
  return (a.pullBack g.eval inv.eval, b.pullBack gb.eval invb.eval)

variable {K E : Type} [NumericScalar K] [Exponent E]

/-- The number of rounds after which a reduction is given up. -/
def maxSteps : Nat := 10000

/-- Goes on from a map with a number of rounds still allowed: the final map and how many of them were not used. -/
def reduceFrom (a b : Ellipse K) (g : PlaneOp E) : (left : Nat) → Except Failure (PlaneOp E × Nat)
  | 0 => .error (.broken (.unreduced maxSteps))
  | left + 1 => do
    let (ea, eb) ← preimages a b g
    match ← Shape.step? (Shape.ofEllipse ea) (Shape.ofEllipse eb) with
    | none => return (g, left)
    | some (h, k) => reduceFrom a b (g.compose (h.op.shifted k)) left

/-- The upright pair of two ellipses; there is none if one of them is degenerate. -/
def ofEllipses (a b : Ellipse K) : Except Failure (Option (UprightPair K E)) := do
  if a.isDegenerate || b.isDegenerate then
    return none
  else
    let (g, left) ← reduceFrom (← a.normalized) (← b.normalized) PlaneOp.identity (maxSteps + 1)
    let (ea, eb) ← preimages a b g
    return some ⟨g, ← ea.box, ← eb.box, maxSteps - left⟩

end UprightPair

end CliffordT

import CliffordT.Plane.Interval
import CliffordT.Square
import CliffordT.Working.Quotient

/-!
Ellipses as quadratic forms with a centre: their bounding boxes, and their preimages under linear maps.
-/

namespace CliffordT

/-- The points `c + (x, y)` with `xx * x² + 2 * xy * x * y + yy * y² ≤ 1`. -/
structure Ellipse (K : Type) where
  /-- The coefficient of `x²`. -/
  xx : K
  /-- Half the coefficient of `x * y`. -/
  xy : K
  /-- The coefficient of `y²`. -/
  yy : K
  /-- The centre. -/
  centre : K × K
  deriving Repr

namespace Ellipse

variable {K : Type} [Scalar K]

open Scalar

/-- The determinant of the form. -/
def det (e : Ellipse K) : K := e.xx * e.yy - square e.xy

/-- Whether the form fails to be positive definite. -/
def isDegenerate (e : Ellipse K) : Bool :=
  !isPositive e.xx || !isPositive e.yy || !isPositive e.det

/-- The ellipse of the same shape and centre whose form has determinant one. -/
def normalized (e : Ellipse K) : Except Failure (Ellipse K) := do
  let s := sqrt e.det
  return ⟨← quotient e.xx s, ← quotient e.xy s, ← quotient e.yy s, e.centre⟩

/-- The smallest box around the ellipse. -/
def box (e : Ellipse K) : Except Failure (Box K) := do
  let det := e.det
  let dx := sqrt (← quotient e.yy det)
  let dy := sqrt (← quotient e.xx det)
  return ⟨⟨e.centre.1 - dx, e.centre.1 + dx⟩, ⟨e.centre.2 - dy, e.centre.2 + dy⟩⟩

/-- The area of the ellipse as a fraction of the area of its box. -/
def uprightness (e : Ellipse K) : Except Failure K :=
  quotient (pi * sqrt e.det) (Scalar.scale (sqrt (e.xx * e.yy)) 4)

/-- The preimage under the linear map with matrix `g` and inverse `gInv`. -/
def pullBack (e : Ellipse K) (g gInv : Square K) : Ellipse K :=
  let m00 := e.xx * g.m₀₀ + e.xy * g.m₁₀
  let m01 := e.xx * g.m₀₁ + e.xy * g.m₁₁
  let m10 := e.xy * g.m₀₀ + e.yy * g.m₁₀
  let m11 := e.xy * g.m₀₁ + e.yy * g.m₁₁
  { xx := g.m₀₀ * m00 + g.m₁₀ * m10
    xy := g.m₀₀ * m01 + g.m₁₀ * m11
    yy := g.m₀₁ * m01 + g.m₁₁ * m11
    centre :=
      (gInv.m₀₀ * e.centre.1 + gInv.m₀₁ * e.centre.2, gInv.m₁₀ * e.centre.1 + gInv.m₁₁ * e.centre.2) }

end Ellipse

end CliffordT

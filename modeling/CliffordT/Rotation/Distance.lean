import CliffordT.Gate.Operator
import CliffordT.Working.Embedding

/-!
Distances from a rotation about the third axis, in operator norm.

There is a closed form for any operator, through the largest singular value of a two-by-two matrix, and a shorter one
for operators of determinant one, which needs the top left entry only.
-/

namespace CliffordT

open Scalar

variable {K : Type} [Scalar K]

/-- The product of two complex numbers. -/
def complexMul (x y : K × K) : K × K := (x.1 * y.1 - x.2 * y.2, x.1 * y.2 + x.2 * y.1)

/-- The largest singular value of a complex matrix: its square is half of `f + √(f² - 4 |det|²)`, where `f` is the sum of
the squared absolute values of the entries, taken column by column. -/
def operatorNorm (m : Square (K × K)) : K :=
  let f := [m.m₀₀, m.m₁₀, m.m₀₁, m.m₁₁].foldl (fun acc z => acc + square z.1 + square z.2) 0
  let p := complexMul m.m₀₀ m.m₁₁
  let q := complexMul m.m₀₁ m.m₁₀
  let detSq := square (p.1 - q.1) + square (p.2 - q.2)
  let root := sqrt (square f - scale detSq 4)
  sqrt (half (f + root))

namespace QubitOp

variable {E : Type} [Exponent E]

/-- The entries as pairs of scalars. -/
def eval (u : QubitOp E) : Square (K × K) := u.entries.map CycloFrac.eval

/-- The distance of an operator from the rotation by an angle. -/
def distance (u : QubitOp E) (theta : K) : K :=
  let (sin, cos) := sinCos (half theta)
  let target : Square (K × K) := ⟨(cos, -sin), (0, 0), (0, 0), (cos, sin)⟩
  operatorNorm (Square.zipWith (fun a b => (a.1 - b.1, a.2 - b.2)) u.eval target)

end QubitOp

/-- The distance of an operator of determinant one and top left entry `u` from the rotation by an angle:
`√(2 - 2 Re (u e^(iθ/2)))`. -/
def rotationError {E : Type} [Exponent E] (u : CycloFrac E) (theta : K) : K :=
  let (sin, cos) := sinCos (half theta)
  let point : K × K := CycloFrac.eval u
  let overlap := point.1 * cos - point.2 * sin
  sqrt (ofInt 2 - scale overlap 2)

end CliffordT

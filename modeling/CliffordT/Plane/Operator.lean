import CliffordT.Failure
import CliffordT.Ring.Text
import CliffordT.Square
import CliffordT.Working.Embedding

/-!
Linear maps of the plane with entries in `𝔻[√2]`, acting on points of `𝔻[ω]` through real and imaginary parts.

The maps of interest take `ℤ[ω]` onto itself. The elementary ones below are the steps by which a pair
of ellipses is made upright.
-/

namespace CliffordT

/-- A linear map of the plane. -/
abbrev PlaneOp (E : Type := UInt32) := Square (QuadFrac E)

namespace PlaneOp

variable {E : Type} [Exponent E]

/-- The identity. -/
def identity : PlaneOp E := ⟨1, 0, 0, 1⟩

/-- The product, with reduced entries. -/
def compose (g h : PlaneOp E) : PlaneOp E := Square.map RootFrac.reduce (g * h)

/-- The map with `√2` replaced by `-√2` in every entry. -/
def bullet (g : PlaneOp E) : PlaneOp E := Square.map RootFrac.bullet g

/-- The map between the planes whose axes are scaled by `λ^(k/2)` and `λ^(-k/2)`. -/
def shifted (g : PlaneOp E) (k : Int) : PlaneOp E :=
  { g with
    m₀₁ := g.m₀₁.scale (QuadInt.lambdaPow k)
    m₁₀ := g.m₁₀.scale (QuadInt.lambdaPow (-k)) }

/-- The determinant. -/
def det (g : PlaneOp E) : QuadFrac E := (g.m₀₀ * g.m₁₁ - g.m₀₁ * g.m₁₀).reduce

/-- The inverse, which has entries in the same ring if the determinant is one or minus one. -/
def inverse (g : PlaneOp E) : Except Failure (PlaneOp E) :=
  let d := g.det
  if d.same 1 then .ok ⟨g.m₁₁, -g.m₀₁, -g.m₁₀, g.m₀₀⟩
  else if d.same (-1) then .ok ⟨-g.m₁₁, g.m₀₁, g.m₁₀, -g.m₀₀⟩
  else .error (.broken (.noInverse (toString d)))

/-- The image of a point. -/
def apply (g : PlaneOp E) (p : CycloFrac E) : CycloFrac E :=
  let x := CycloFrac.re p
  let y := CycloFrac.im p
  RootFrac.reduce (CycloFrac.ofParts (g.m₀₀ * x + g.m₀₁ * y).reduce (g.m₁₀ * x + g.m₁₁ * y).reduce)

/-- Whether the images of `1`, `i` and `ω` lie in `ℤ[ω]`. -/
def preservesLattice (g : PlaneOp E) : Bool :=
  [1, CycloFrac.imaginaryUnit, CycloFrac.omega].all fun p => Exponent.load (apply g p).reduce.exp = 0

/-- Whether two maps have equal entries. -/
def same (g h : PlaneOp E) : Bool :=
  g.m₀₀.same h.m₀₀ && g.m₀₁.same h.m₀₁ && g.m₁₀.same h.m₁₀ && g.m₁₁.same h.m₁₁

/-- The entries as scalars. -/
def eval {K : Type} [Scalar K] (g : PlaneOp E) : Square K := Square.map QuadFrac.eval g

/-- The text of a map, row by row. -/
def text (g : PlaneOp E) : String :=
  "[[" ++ toString g.m₀₀ ++ ", " ++ toString g.m₀₁ ++ "], [" ++ toString g.m₁₀ ++ ", " ++
    toString g.m₁₁ ++ "]]"

end PlaneOp

/-- The steps by which ellipses are made upright. -/
inductive Elementary where
  /-- The rotation by an eighth of a turn. -/
  | R
  /-- The map `(1/√2) [[-λ⁻¹, -1], [λ, 1]]`. -/
  | K
  /-- The map `(1/√2) [[-λ, 1], [λ⁻¹, -1]]`, the conjugate of `K`. -/
  | KBullet
  /-- The shear `[[1, -2n], [0, 1]]`. -/
  | A (n : Int)
  /-- The shear `[[1, n√2], [0, 1]]`. -/
  | B (n : Int)
  /-- The reflection that exchanges the axes. -/
  | X
  /-- The reflection of the second axis. -/
  | Z
  deriving DecidableEq, Repr

namespace Elementary

open Exponent

/-- The linear map of a step. -/
def op {E : Type} [Exponent E] : Elementary → PlaneOp E
  | R => ⟨⟨⟨1, 0⟩, store 1⟩, ⟨⟨-1, 0⟩, store 1⟩, ⟨⟨1, 0⟩, store 1⟩, ⟨⟨1, 0⟩, store 1⟩⟩
  | K => ⟨⟨⟨1, -1⟩, store 1⟩, ⟨⟨-1, 0⟩, store 1⟩, ⟨⟨1, 1⟩, store 1⟩, ⟨⟨1, 0⟩, store 1⟩⟩
  | KBullet => ⟨⟨⟨-1, -1⟩, store 1⟩, ⟨⟨1, 0⟩, store 1⟩, ⟨⟨-1, 1⟩, store 1⟩, ⟨⟨-1, 0⟩, store 1⟩⟩
  | A n => ⟨1, RootFrac.ofRing ⟨-2 * n, 0⟩, 0, 1⟩
  | B n => ⟨1, RootFrac.ofRing ⟨0, n⟩, 0, 1⟩
  | X => ⟨0, 1, 1, 0⟩
  | Z => ⟨1, 0, 0, -1⟩

end Elementary

end CliffordT

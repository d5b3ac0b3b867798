import CliffordT.Plane.Ellipse
import CliffordT.Plane.Quadratic
import CliffordT.Working.Embedding

/-!
The two convex regions that candidates are looked for in: the unit disk, and the part of it that is cut off by a chord
near the target of a rotation.

A region is known by an ellipse around it, a membership test, and its slices along lines.
-/

namespace CliffordT

open Scalar

/-- A bounded convex region of the plane. -/
structure Region (K : Type) (E : Type := UInt32) where
  /-- An ellipse around the region. -/
  ellipse : Ellipse K
  /-- Whether a point lies in the region. -/
  inside : CycloFrac E → Bool
  /-- The parameters `t` for which `origin + t * direction` lies in the region, if there are any. -/
  slice? : (origin direction : CycloFrac E) → Option (Interval K)

namespace Disk

variable {K E : Type} [Scalar K] [Exponent E]

/-- Whether a point lies in the closed unit disk, decided exactly. -/
def inside (u : CycloFrac E) : Bool := QuadFrac.order (CycloFrac.absSq u) 1 != .gt

/-- The coefficients of `|p + t v|² - 1` as a polynomial in `t`. -/
def polynomial (p v : CycloFrac E) : K × K × K :=
  (QuadFrac.eval (CycloFrac.absSq v),
   scale (QuadFrac.eval (CycloFrac.re (CycloFrac.conj v * p))) 2,
   QuadFrac.eval (CycloFrac.absSq p - 1))

/-- The slice of the unit disk along a line. -/
def slice? (p v : CycloFrac E) : Option (Interval K) :=
  let (a, b, c) := polynomial p v
  (quadraticRoots? a b c).map fun (lo, hi) => ⟨lo, hi⟩

/-- The circle as an ellipse. -/
def ellipse : Ellipse K := ⟨1, 0, 1, (0, 0)⟩

/-- The closed unit disk. -/
def region : Region K E := ⟨ellipse, inside, slice?⟩

end Disk

/-- The points `u` of the unit disk with `Re (u z†) ≥ chord`, for a target `z` of length one. -/
structure Segment (K : Type) where
  /-- Real and imaginary part of the target. -/
  target : K × K
  /-- The least projection on the target. -/
  chord : K
  /-- An ellipse around the points. -/
  ellipse : Ellipse K
  deriving Repr

namespace Segment

variable {K E : Type} [Scalar K] [Exponent E]

/-- The segment of the points within a tolerance of the rotation by an angle: the target is `e^(-iθ/2)` and the chord
`1 - ε²/2`. The ellipse has half-axes `ε²/2` along the target and `√(1 - chord²)` across it. -/
def ofRotation (theta epsilon : K) : Except Failure (Segment K) := do
  let (sin, cos) := sinCos (half (-theta))
  let h := half (square epsilon)
  let chord := 1 - h
  let along ← quotient 1 (square h)
  let across ← quotient 1 (1 - square chord)
  return {
    target := (cos, sin)
    chord := chord
    ellipse := {
      xx := square cos * along + square sin * across
      xy := (cos * sin) * (along - across)
      yy := square sin * along + square cos * across
      centre := (chord * cos, chord * sin) } }

/-- The projection of a point on the target. -/
def projection (s : Segment K) (point : K × K) : K := point.1 * s.target.1 + point.2 * s.target.2

/-- Whether a point lies in the segment: exactly in the disk, and beyond the chord as far as scalars tell. -/
def inside (s : Segment K) (u : CycloFrac E) : Bool :=
  Disk.inside u && atMost s.chord (s.projection (CycloFrac.eval u))

/-- The slice along a line: the slice of the disk, cut where the line crosses the chord. -/
def slice? (s : Segment K) (p v : CycloFrac E) : Option (Interval K) :=
  match Disk.slice? p v with
  | none => none
  | some ⟨lo, hi⟩ =>
    let slope := s.projection (CycloFrac.eval v)
    let gap := s.chord - s.projection (CycloFrac.eval p)
    let cut : Option (Interval K) :=
      if isZero slope then if isPositive gap then none else some ⟨lo, hi⟩
      else
        let t := gap / slope
        if isPositive slope then some ⟨larger lo t, hi⟩ else some ⟨lo, smaller hi t⟩
    cut.filter fun i => !i.isEmpty

/-- The segment as a region. -/
def region (s : Segment K) : Region K E := ⟨s.ellipse, s.inside, s.slice?⟩

end Segment

end CliffordT

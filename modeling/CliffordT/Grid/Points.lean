import CliffordT.Grid.Line
import CliffordT.Plane.Reduction
import CliffordT.Plane.Region

/-!
The two-dimensional grid problem: all `u` in `𝔻[ω]` of least denominator exponent `k` that lie in one region and whose
conjugate lies in another.

The regions are first made upright by a linear map `G`, and `G⁻¹ u = (x + iy) / √2 ^ (k + 1)` is looked for. The first
coordinates come from the boxes of the upright regions, a little enlarged. For each of them, the second
coordinates come from the slices of the regions along a line; they agree with the first modulo `√2`. Every point is
tested in both regions.
-/

namespace CliffordT.Points

open Exponent Scalar

/-- What is fixed while points are enumerated. -/
structure Problem (K : Type) (E : Type := UInt32) where
  /-- Where the points lie. -/
  first : Region K E
  /-- Where their conjugates lie. -/
  second : Region K E
  /-- The least denominator exponent. -/
  exponent : E
  /-- The image of `1` under the map. -/
  xAxis : CycloFrac E
  /-- The image of `i` under the map. -/
  yAxis : CycloFrac E

/-- The points with one first coordinate. -/
structure Column (K : Type) (E : Type := UInt32) where
  /-- The point of the line with second coordinate zero. -/
  origin : CycloFrac E
  /-- The second coordinates. -/
  ys : Line.State K

/-- The state of an enumeration. -/
structure State (K : Type) (E : Type := UInt32) where
  /-- The first coordinates. -/
  xs : Line.State K
  /-- The column at work. -/
  column : Option (Column K E)

variable {K E : Type} [NumericScalar K] [Exponent E]

/-- The interval enlarged by a small part of its length, and by the error granted to a computation. -/
def padded (i : Interval K) : Interval K :=
  i.fatten (shift (magnitude i.width) (-10) + NumericScalar.tolerance)

/-- The points with a given first coordinate, unless one of the slices is empty. -/
def Problem.column? (p : Problem K E) (alpha : QuadInt) : Option (Column K E) :=
  let origin := CycloFrac.ofReal ⟨alpha, next p.exponent⟩ * p.xAxis
  match p.first.slice? origin p.yAxis with
  | none => none
  | some i =>
    match p.second.slice? origin.bullet p.yAxis.bullet with
    | none => none
    | some j => some ⟨origin, Line.scaledWithParity (padded i) (padded j) (load (next p.exponent)) (alpha.a % 2)⟩

/-- The point with a given second coordinate, if it solves the problem. -/
def Problem.accept? (p : Problem K E) (origin : CycloFrac E) (beta : QuadInt) : Option (CycloFrac E) :=
  let u := (origin + CycloFrac.ofReal ⟨beta, next p.exponent⟩ * p.yAxis).reduce
  if load u.exp = load p.exponent && p.first.inside u && p.second.inside u.bullet then some u else none

/-- The step of the enumeration. -/
def step (p : Problem K E) (s : State K E) : Progress (State K E) (CycloFrac E) :=
  match s.column with
  | some c =>
    match Line.step c.ys with
    | .done => .quiet { s with column := none }
    | .quiet ys => .quiet { s with column := some { c with ys := ys } }
    | .found beta ys =>
      let s := { s with column := some { c with ys := ys } }
      match p.accept? c.origin beta with
      | some u => .found u s
      | none => .quiet s
  | none =>
    match Line.step s.xs with
    | .done => .done
    | .quiet xs => .quiet { s with xs := xs }
    | .found alpha xs => .quiet ⟨xs, p.column? alpha⟩

/-- The problem for two regions and a map that makes them upright. -/
def problem (first second : Region K E) (g : PlaneOp E) (k : E) : Problem K E :=
  ⟨first, second, k, g.apply 1, g.apply CycloFrac.imaginaryUnit⟩

/-- The beginning of the enumeration, for the boxes of the upright regions. -/
def start (pair : UprightPair K E) (k : E) : State K E :=
  ⟨Line.scaled (padded pair.first.x) (padded pair.second.x) (load (next k)), none⟩

/-- The enumeration without points, for regions that cannot be made upright. -/
def nothing : State K E := ⟨⟨[], none, .plain⟩, none⟩

/-- The problem and the beginning of its enumeration. Degenerate regions have no points. -/
def enumeration (first second : Region K E) (pair? : Option (UprightPair K E)) (k : Nat) :
    Problem K E × State K E :=
  match pair? with
  | some pair => (problem first second pair.op (store k), start pair (store k))
  | none => (problem first second PlaneOp.identity (store k), nothing)

end CliffordT.Points

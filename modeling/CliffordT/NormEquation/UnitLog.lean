import CliffordT.Ring.QuadInt

/-!
Logarithms of totally positive units: the exponent `m` with `v = λ^(2m)`.

A totally positive unit is an even power of `λ`. Multiplying by `λ²` or `λ⁻²` towards one brings its integer
part down, so that the integer part bounds the number of steps.
-/

namespace CliffordT.UnitLog

/-- Divides `v > 1` by `λ²` until one is reached, counting on from `m`. -/
def descend (v : QuadInt) (m : Int) : Nat → Option Int
  | 0 => none
  | steps + 1 =>
    let v := v * QuadInt.lambdaPow (-2)
    match (v - 1).sign with
    | .eq => some (m + 1)
    | .gt => descend v (m + 1) steps
    | .lt => none

/-- Multiplies `v < 1` by `λ²` until one is reached, counting down from `m`. -/
def ascend (v : QuadInt) (m : Int) : Nat → Option Int
  | 0 => none
  | steps + 1 =>
    let v := v * QuadInt.lambdaPow 2
    match (v - 1).sign with
    | .eq => some (m - 1)
    | .lt => ascend v (m - 1) steps
    | .gt => none

/-- The integer `m` with `v = λ^(2m)`, if there is one. -/
def half? (v : QuadInt) : Option Int :=
  if v.norm = 1 ∧ v.isTotallyNonneg then
    match (v - 1).sign with
    | .eq => some 0
    | .gt => descend v 0 v.a.natAbs
    | .lt => ascend v 0 v.a.natAbs
  else none

end CliffordT.UnitLog

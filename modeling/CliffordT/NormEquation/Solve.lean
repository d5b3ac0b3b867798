import CliffordT.NormEquation.PrimeAbove
import CliffordT.NormEquation.UnitLog
import CliffordT.Number.Factor

/-!
The norm equation `t† t = ξ`, solved for `t` in `ℤ[ω]` or `𝔻[ω]`.

The integer norm of `ξ` is factored, and every prime of `ℤ[√2]` that divides `ξ` is written as the squared
absolute value of a prime of `ℤ[ω]`, up to a unit. Primes that are 7 modulo eight do not split further, so
they must divide `ξ` to an even power. What is left is a unit; it has to be an even power of `λ`,
half of which goes into `t`. The product is checked before it is returned.
-/

namespace CliffordT.NormEquation

open Exponent

/-- How often `d` divides `x`, counting up to the limit. -/
def multiplicity (d x : QuadInt) : Nat → Nat
  | 0 => 0
  | limit + 1 =>
    match x.quotient? d with
    | some q => multiplicity d q limit + 1
    | none => 0

/-- The prime `1 - ω` above two; its squared absolute value is `√2 λ⁻¹`. -/
def primeAboveTwo : CycloInt := ⟨1, -1, 0, 0⟩

/-- The factor of `t` for a prime `p` that divides the norm of `ξ` exactly `e` times. -/
def primePart (xi : QuadInt) (p e : Nat) : Except Failure CycloInt := do
  if p = 2 then
    .ok (primeAboveTwo.pow e)
  else if p % 8 = 3 ∨ p % 8 = 5 then
    if e % 2 = 1 then
      .error (.broken (.oddInert p (toString xi)))
    else
      let pi ← PrimeAbove.inert p
      .ok (pi.pow (e / 2))
  else
    let eta ← PrimeAbove.quad p
    let first := multiplicity eta xi e
    let second := multiplicity eta.bullet xi (e - first)
    if first + second ≠ e then
      .error (.broken (.multiplicities first second (toString xi) p e))
    else if p % 8 = 7 then
      if first % 2 = 1 ∨ second % 2 = 1 then
        .error (.notNorm (toString xi))
      else
        .ok ((CycloInt.ofQuad eta).pow (first / 2) * (CycloInt.ofQuad eta.bullet).pow (second / 2))
    else
      let pi ← PrimeAbove.split eta p
      .ok (pi.pow first * pi.bullet.pow second)

/-- The product of the factors of `t` for all listed primes. -/
def primeParts (xi : QuadInt) : List (Nat × Nat) → CycloInt → Except Failure CycloInt
  | [], t => .ok t
  | (p, e) :: rest, t => do
    let s ← primePart xi p e
    primeParts xi rest (t * s)

/-- Corrects a `t` that is right up to a unit, and checks the result. -/
def absorbUnit (xi : QuadInt) (t : CycloInt) : Except Failure CycloInt :=
  match (t.conj * t).toQuad? with
  | none => .error (.broken .notReal)
  | some square =>
    match xi.quotient? square with
    | none => .error (.broken (.notDividing (toString square) (toString xi)))
    | some unit =>
      match UnitLog.half? unit with
      | none => .error (.notNorm (toString xi))
      | some m =>
        let t := t * CycloInt.ofQuad (QuadInt.lambdaPow m)
        if t.conj * t = CycloInt.ofQuad xi then .ok t
        else .error (.broken (.notSolving (toString t) (toString xi)))

/-- A member `t` of `ℤ[ω]` with `t† t = ξ`. -/
def solveQuad (xi : QuadInt) (effort : Nat) (w : Words) : Except Failure CycloInt := do
  if xi = 0 then
    .ok 0
  else if !xi.isTotallyNonneg then
    .error (.notNorm (toString xi))
  else
    let (factors, _) ← Factor.factor xi.norm.natAbs effort w
    let t ← primeParts xi factors 1
    absorbUnit xi t

/-- A member `t` of `𝔻[ω]` with `t† t = ξ`. An odd denominator exponent is first made even. -/
def solveFrac {E : Type} [Exponent E] (xi : QuadFrac E) (effort : Nat) (w : Words) : Except Failure (CycloFrac E) := do
  let xi := xi.reduce
  if load xi.exp % 2 = 0 then
    let t ← solveQuad xi.num effort w
    .ok (RootFrac.reduce ⟨t, store (load xi.exp / 2)⟩)
  else
    let t ← solveQuad xi.num.timesRoot effort w
    .ok (RootFrac.reduce ⟨t, store (load (next xi.exp) / 2)⟩)

end CliffordT.NormEquation

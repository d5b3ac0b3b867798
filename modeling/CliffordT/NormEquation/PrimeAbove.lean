import CliffordT.Number.Modular
import CliffordT.Ring.Text

/-!
Primes of `ℤ[√2]` and `ℤ[ω]` above a rational prime.

A prime that is 1 or 7 modulo eight splits in `ℤ[√2]`, because two is then a square. One that is 3 or 5
stays prime there and splits in `ℤ[ω]`; so do the factors of a prime that is 1 modulo eight, because
`-1` or `-2` is then a square. The factor is found as a greatest common divisor and its norm is checked.
-/

namespace CliffordT

/-- A common divisor of `a` and `b` with the given norm, from either order of the Euclidean algorithm. -/
def CycloInt.gcdOfNorm (a b : CycloInt) (norm : Int) : Except Failure CycloInt :=
  match [a.gcd b, b.gcd a].find? (·.norm = norm) with
  | some g => .ok g
  | none => .error (.broken (.noPrimeDividing norm (toString a) (toString b)))

namespace PrimeAbove

/-- A square root of `a` modulo `p`, which has one if `p` is a prime of the right class. -/
def root (a : Int) (p : Nat) (absent : Breach) : Except Failure Nat := do
  match ← Modular.sqrt? a p with
  | some r => .ok r
  | none => .error (.broken absent)

/-- A prime of `ℤ[√2]` with norm `p` or `-p`, for `p` equal to 1 or 7 modulo eight. -/
def quad (p : Nat) : Except Failure QuadInt := do
  let r ← root 2 p (.noRootOfTwo p)
  let eta := (QuadInt.ofInt p).gcd ⟨r, 1⟩
  if eta.norm.natAbs = p then .ok eta else .error (.broken (.unsplit p))

/-- A prime of `ℤ[ω]` whose squared absolute value is `p` up to a unit, for `p` equal to 3 or 5 modulo
eight: it divides `u + i` with `u² = -1`, or `u + i√2` with `u² = -2`. -/
def inert (p : Nat) : Except Failure CycloInt := do
  let witness ←
    if p % 8 = 5 then do
      let u ← root (-1) p (.noRoot (-1) p)
      pure (CycloInt.ofInt u + CycloInt.imaginaryUnit)
    else do
      let u ← root (-2) p (.noRoot (-2) p)
      pure (CycloInt.ofInt u + ⟨0, 1, 0, 1⟩)
  (CycloInt.ofInt p).gcdOfNorm witness ((p : Int) * p)

/-- A prime of `ℤ[ω]` whose squared absolute value is `eta` up to a unit, for `eta` above a prime `p` that is 1
modulo eight. -/
def split (eta : QuadInt) (p : Nat) : Except Failure CycloInt := do
  let u ← root (-1) p (.noRoot (-1) p)
  (CycloInt.ofQuad eta).gcdOfNorm (CycloInt.ofInt u + CycloInt.imaginaryUnit) p

end PrimeAbove

end CliffordT

import CliffordT.Working.Approx
import CliffordT.Working.Pi

/-!
The constants and the sine and cosine of a working precision.

The argument of sine and cosine is reduced by the nearest multiple of `2π` and both power series are summed until their
terms are negligible. Reducing a large argument loses about as many bits as it has before the point.
-/

namespace CliffordT.Approx

variable {p : Nat}

/-- The number `√2`. -/
def rootTwo : Approx p := sqrt ⟨2, 0⟩

/-- The number `1/√2`, half of `√2`. -/
def invRootTwo : Approx p := shift rootTwo (-1)

/-- The number `π`. -/
def pi : Approx p := round p (Machin.scaledPi p) (-(p : Int))

/-- The number of bits kept in hand beyond the digits that are promised. -/
def guardBits : Nat := 32

/-- The error that is granted to a short computation with numbers of size one. -/
def tolerance : Approx p := powTwo (-((p - guardBits : Nat) : Int))

/-- Adds the terms of both series from the `n`-th on, given the terms before, until both are below `limit`;
at most `steps` terms are added. -/
def sinCosTail (square limit : Approx p) (n : Nat) (sin cos sinTerm cosTerm : Approx p) :
    (steps : Nat) → Approx p × Approx p
  | 0 => (sin, cos)
  | steps + 1 =>
    let cosTerm := -(cosTerm * square).divInt ((2 * n - 1) * (2 * n) : Nat)
    let sinTerm := -(sinTerm * square).divInt ((2 * n) * (2 * n + 1) : Nat)
    if cosTerm.abs.order limit = .lt && sinTerm.abs.order limit = .lt then (sin, cos)
    else sinCosTail square limit (n + 1) (sin + sinTerm) (cos + cosTerm) sinTerm cosTerm steps

/-- Sine and cosine. The number of terms that can matter is bounded by the precision and the square of the reduced
argument. -/
def sinCos (x : Approx p) : Approx p × Approx p :=
  let twoPi := pi.scale 2
  let turns := (x / twoPi).nearest
  let r := x - twoPi.scale turns
  let square := r * r
  let limit := powTwo (-(p : Int) - 8)
  sinCosTail square limit 1 r 1 r 1 (p + 16 + 4 * square.ceil.toNat)

end CliffordT.Approx

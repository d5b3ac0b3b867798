import CliffordT.Ring.CycloFrac
import CliffordT.Working.Scalar

/-!
The values of ring elements and fractions as scalars; a complex number is a pair of them.
-/

namespace CliffordT

variable {K E : Type} [Scalar K] [Exponent E]

/-- The value of `a + b√2`. -/
def QuadInt.eval (x : QuadInt) : K := Scalar.ofInt x.a + Scalar.scale Scalar.rootTwo x.b

/-- The real and imaginary parts of the value of a polynomial in `ω`. -/
def CycloInt.eval (x : CycloInt) : K × K :=
  let s : K := Scalar.invRootTwo
  (Scalar.ofInt x.x₀ + Scalar.scale s (x.x₁ - x.x₃), Scalar.ofInt x.x₂ + Scalar.scale s (x.x₁ + x.x₃))

/-- The value of a real fraction. The even part of its denominator is a power of two. -/
def QuadFrac.eval (x : QuadFrac E) : K :=
  let v : K := Scalar.shift x.num.eval (-((Exponent.load x.exp / 2 : Nat) : Int))
  if Exponent.load x.exp % 2 = 1 then v * Scalar.invRootTwo else v

/-- The real and imaginary parts of the value of a fraction. -/
def CycloFrac.eval (x : CycloFrac E) : K × K := (QuadFrac.eval (CycloFrac.re x), QuadFrac.eval (CycloFrac.im x))

end CliffordT

import CliffordT.Ring.CycloInt
import CliffordT.Ring.QuadFrac

/-!
The ring `𝔻[ω]` of fractions `u / √2 ^ k` with `u` in `ℤ[ω]`: complex conjugation, real and imaginary
parts, and the squared absolute value.
-/

namespace CliffordT

/-- A member of `ℤ[ω]` over a power of `√2`. -/
abbrev CycloFrac (E : Type := UInt32) := RootFrac CycloInt E

namespace CycloFrac

open Exponent

variable {E : Type} [Exponent E]

/-- An integer as a fraction. -/
def ofInt (n : Int) : CycloFrac E := RootFrac.ofRing (CycloInt.ofInt n)

/-- The imaginary unit. -/
def imaginaryUnit : CycloFrac E := RootFrac.ofRing CycloInt.imaginaryUnit

/-- The eighth root of unity `ω`. -/
def omega : CycloFrac E := RootFrac.ofRing CycloInt.omega

/-- A real number as a complex one. -/
def ofReal (x : QuadFrac E) : CycloFrac E := ⟨CycloInt.ofQuad x.num, x.exp⟩

/-- The complex conjugate. -/
def conj (x : CycloFrac E) : CycloFrac E := ⟨x.num.conj, x.exp⟩

/-- The product with `ωⁿ` for any integer `n`. -/
def timesOmegaPow (x : CycloFrac E) (n : Int) : CycloFrac E := ⟨x.num.timesOmegaPow n, x.exp⟩

/-- The number with the given real and imaginary parts. -/
def ofParts (re im : QuadFrac E) : CycloFrac E := ofReal re + timesOmegaPow (ofReal im) 2

/-- The real part, where `ω` and `-ω³` each contribute half of `√2`. -/
def re (x : CycloFrac E) : QuadFrac E := ⟨⟨x.num.x₁ - x.num.x₃, x.num.x₀⟩, next x.exp⟩

/-- The imaginary part, where `ω` and `ω³` each contribute half of `√2`. -/
def im (x : CycloFrac E) : QuadFrac E := ⟨⟨x.num.x₁ + x.num.x₃, x.num.x₂⟩, next x.exp⟩

/-- The squared absolute value; twice the exponent is stored. -/
def absSq (x : CycloFrac E) : QuadFrac E := ⟨x.num.absSq, store (2 * load x.exp)⟩

end CycloFrac

end CliffordT

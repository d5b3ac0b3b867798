import CliffordT.Ring.QuadInt
import CliffordT.Ring.RootFrac

/-!
The ring `𝔻[√2]` of fractions `α / √2 ^ k` with `α` in `ℤ[√2]`: exact order and multiplication by powers
of `√2`.
-/

namespace CliffordT

/-- A member of `ℤ[√2]` over a power of `√2`. -/
abbrev QuadFrac (E : Type := UInt32) := RootFrac QuadInt E

namespace QuadFrac

open Exponent

variable {E : Type} [Exponent E]

/-- An integer as a fraction. -/
def ofInt (n : Int) : QuadFrac E := RootFrac.ofRing (QuadInt.ofInt n)

/-- The sign of the real number. -/
def sign (x : QuadFrac E) : Ordering := x.num.sign

/-- The order of the real numbers. -/
def order (x y : QuadFrac E) : Ordering := sign (x - y)

/-- The product with `√2 ^ e`. A positive power goes into the numerator, which is then reduced; a negative
one is stored as an exponent itself and then added to the one that is stored already. -/
def shift (x : QuadFrac E) (e : Int) : QuadFrac E :=
  if 0 ≤ e then RootFrac.reduce ⟨Nat.repeat QuadInt.timesRoot e.toNat x.num, x.exp⟩
  else ⟨x.num, store (load x.exp + load (store e.natAbs : E))⟩

end QuadFrac

end CliffordT

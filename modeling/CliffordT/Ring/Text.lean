import CliffordT.Ring.CycloFrac
import CliffordT.Text.Numeral

/-!
The written form of ring elements and fractions.

Every coefficient but the first carries its sign, also when it is zero or positive, and powers of `ω` stand in
decreasing order.
-/

namespace CliffordT

/-- An integer with its sign in front, also when it is not negative. -/
def signedText (n : Int) : String := if n < 0 then Numeral.ofInt n else "+" ++ Numeral.ofInt n

/-- The text of `a + b√2`. -/
def QuadInt.text (x : QuadInt) : String := Numeral.ofInt x.a ++ signedText x.b ++ "√2"

instance : ToString QuadInt := ⟨QuadInt.text⟩

/-- The text of a polynomial in `ω`. -/
def CycloInt.text (x : CycloInt) : String :=
  Numeral.ofInt x.x₃ ++ "ω³" ++ signedText x.x₂ ++ "ω²" ++ signedText x.x₁ ++ "ω" ++ signedText x.x₀

instance : ToString CycloInt := ⟨CycloInt.text⟩

/-- The text of a fraction, as it is stored. -/
def RootFrac.text {R E : Type} [ToString R] [Exponent E] (x : RootFrac R E) : String :=
  "(" ++ toString x.num ++ ")/√2^" ++ toString (Exponent.load x.exp)

instance {R E : Type} [ToString R] [Exponent E] : ToString (RootFrac R E) := ⟨RootFrac.text⟩

end CliffordT

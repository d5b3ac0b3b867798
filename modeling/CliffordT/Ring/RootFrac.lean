import CliffordT.Ring.Exponent
import CliffordT.Ring.RootTwo

/-!
Fractions whose denominator is a power of `√2`, over any ring that contains `√2`.

A fraction is kept as it was made: the same number has one representation for every exponent from its
least one on. `RootFrac.reduce` goes to the least exponent, and `RootFrac.same` compares numbers and not
representations.
-/

namespace CliffordT

/-- The number `num / √2 ^ exp`. Exponents are words of 32 bits, unless another type is named. -/
structure RootFrac (R : Type) (E : Type := UInt32) where
  /-- The numerator. -/
  num : R
  /-- The exponent of `√2` in the denominator. -/
  exp : E
  deriving DecidableEq, Repr

namespace RootFrac

open Exponent

variable {R E : Type} [RootTwoRing R] [Exponent E]

/-- A ring element as a fraction. -/
def ofRing (x : R) : RootFrac R E := ⟨x, zero⟩

instance : Zero (RootFrac R E) := ⟨ofRing 0⟩
instance : One (RootFrac R E) := ⟨ofRing 1⟩

/-- The numerator over `√2 ^ k`, for `k` at least the stored exponent. -/
def numOver (x : RootFrac R E) (k : Nat) : R := Nat.repeat RootTwoRing.timesRoot (k - load x.exp) x.num

/-- The same number over `√2 ^ k`, for `k` at least the stored exponent. -/
def raise (x : RootFrac R E) (k : E) : RootFrac R E := ⟨x.numOver (load k), k⟩

instance : Add (RootFrac R E) :=
  ⟨fun x y => let k := max (load x.exp) (load y.exp); ⟨x.numOver k + y.numOver k, store k⟩⟩

instance : Sub (RootFrac R E) :=
  ⟨fun x y => let k := max (load x.exp) (load y.exp); ⟨x.numOver k - y.numOver k, store k⟩⟩

instance : Neg (RootFrac R E) := ⟨fun x => ⟨-x.num, x.exp⟩⟩

/-- The product; the sum of the exponents is stored. -/
instance : Mul (RootFrac R E) := ⟨fun x y => ⟨x.num * y.num, store (load x.exp + load y.exp)⟩⟩

/-- The product with a ring element. -/
def scale (x : RootFrac R E) (r : R) : RootFrac R E := ⟨x.num * r, x.exp⟩

/-- The quotient by `√2`. -/
def overRoot (x : RootFrac R E) : RootFrac R E := ⟨x.num, next x.exp⟩

/-- The image under the automorphism that sends `√2` to `-√2`; an odd power of `√2` below the bar
changes the sign. -/
def bullet (x : RootFrac R E) : RootFrac R E :=
  let n := RootTwoRing.bullet x.num
  ⟨if load x.exp % 2 = 1 then -n else n, x.exp⟩

variable [DecidableEq R]

/-- Whether the number is zero. -/
def isZero (x : RootFrac R E) : Bool := x.num = 0

/-- Divides the numerator by `√2` while it can be divided and the exponent is positive. -/
def divideOut (x : R) : Nat → RootFrac R E
  | 0 => ⟨x, zero⟩
  | k + 1 =>
    match RootTwoRing.overRoot? x with
    | some y => divideOut y k
    | none => ⟨x, store (k + 1)⟩

/-- The representation with the least exponent; zero has exponent zero. -/
def reduce (x : RootFrac R E) : RootFrac R E := if x.num = 0 then 0 else divideOut x.num (load x.exp)

/-- The ring element that this equals, if any. -/
def toRing? (x : RootFrac R E) : Option R :=
  let y := x.reduce
  if load y.exp = 0 then some y.num else none

/-- Whether two fractions are the same number. -/
def same (x y : RootFrac R E) : Bool := (x - y).isZero

end RootFrac

end CliffordT

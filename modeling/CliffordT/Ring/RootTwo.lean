/-!
Rings that contain `√2` together with the map that sends `√2` to `-√2`.

Only what fractions with a power of `√2` in the denominator need is asked for.
-/

namespace CliffordT

/-- A ring in which one can multiply by `√2`, try to divide by it, and replace it by `-√2`. -/
class RootTwoRing (R : Type) extends Zero R, One R, Add R, Sub R, Neg R, Mul R where
  /-- The product with `√2`. -/
  timesRoot : R → R
  /-- The quotient by `√2`, when it lies in the ring. -/
  overRoot? : R → Option R
  /-- The image under the automorphism that sends `√2` to `-√2`. -/
  bullet : R → R

end CliffordT

/-!
The real numbers as the geometry of this library sees them.

Everything geometric is written once, over any type with these operations. Computations use numbers of a
fixed working precision; the same definitions make sense for exact real numbers.
-/

namespace CliffordT

/-- A type of real numbers with the operations that the geometry needs. Callers divide by nonzero
numbers only. -/
class Scalar (K : Type) extends Zero K, One K, Add K, Sub K, Mul K, Neg K, Div K where
  /-- An integer. -/
  ofInt : Int → K
  /-- The product with an integer. -/
  scale : K → Int → K
  /-- The product with a power of two. -/
  shift : K → Int → K
  /-- The square root; zero for a negative number. -/
  sqrt : K → K
  /-- The sign. -/
  sign : K → Ordering
  /-- The order of two numbers. -/
  order : K → K → Ordering
  /-- The number `√2`. -/
  rootTwo : K
  /-- The number `1/√2`. -/
  invRootTwo : K
  /-- The number `π`. -/
  pi : K
  /-- Sine and cosine. -/
  sinCos : K → K × K

namespace Scalar

variable {K : Type} [Scalar K]

/-- Whether a number is zero. -/
def isZero (x : K) : Bool := sign x = .eq

/-- Whether a number is less than zero. -/
def isNegative (x : K) : Bool := sign x = .lt

/-- Whether a number is greater than zero. -/
def isPositive (x : K) : Bool := sign x = .gt

/-- Whether the first number is less than the second. -/
def less (x y : K) : Bool := order x y = .lt

/-- Whether the first number is at most the second. -/
def atMost (x y : K) : Bool := order x y != .gt

/-- The larger of two numbers, the first if they are equal. -/
def larger (x y : K) : K := if less x y then y else x

/-- The smaller of two numbers, the first if they are equal. -/
def smaller (x y : K) : K := if less y x then y else x

/-- Half of a number. -/
def half (x : K) : K := shift x (-1)

/-- The square of a number. -/
def square (x : K) : K := x * x

/-- The absolute value. -/
def magnitude (x : K) : K := if isNegative x then -x else x

/-- The fundamental unit `λ = 1 + √2`. -/
def lambda : K := 1 + rootTwo

/-- Its inverse `√2 - 1`. -/
def lambdaInv : K := rootTwo - 1

end Scalar

end CliffordT

import CliffordT.Ring.QuadInt

/-!
The ring `ℤ[ω]` for `ω = e^{iπ/4}`, so that `ω⁴ = -1`, `ω² = i` and `√2 = ω - ω³`: arithmetic, the two
conjugations, the relative norm to `ℤ[√2]` and the norm to `ℤ`, and Euclidean division.
-/

namespace CliffordT

/-- The number `x₀ + x₁ω + x₂ω² + x₃ω³`. -/
structure CycloInt where
  /-- The integer part. -/
  x₀ : Int
  /-- The coefficient of `ω`. -/
  x₁ : Int
  /-- The coefficient of `ω² = i`. -/
  x₂ : Int
  /-- The coefficient of `ω³`. -/
  x₃ : Int
  deriving DecidableEq, Repr, Inhabited

namespace CycloInt

/-- An integer as a member of `ℤ[ω]`. -/
def ofInt (n : Int) : CycloInt := ⟨n, 0, 0, 0⟩

/-- The real number `a + b√2` as a member of `ℤ[ω]`. -/
def ofQuad (x : QuadInt) : CycloInt := ⟨x.a, x.b, 0, -x.b⟩

/-- The eighth root of unity `ω`. -/
def omega : CycloInt := ⟨0, 1, 0, 0⟩

/-- The imaginary unit `i = ω²`. -/
def imaginaryUnit : CycloInt := ⟨0, 0, 1, 0⟩

instance : Zero CycloInt := ⟨ofInt 0⟩
instance : One CycloInt := ⟨ofInt 1⟩
instance : Add CycloInt := ⟨fun x y => ⟨x.x₀ + y.x₀, x.x₁ + y.x₁, x.x₂ + y.x₂, x.x₃ + y.x₃⟩⟩
instance : Sub CycloInt := ⟨fun x y => ⟨x.x₀ - y.x₀, x.x₁ - y.x₁, x.x₂ - y.x₂, x.x₃ - y.x₃⟩⟩
instance : Neg CycloInt := ⟨fun x => ⟨-x.x₀, -x.x₁, -x.x₂, -x.x₃⟩⟩

/-- The product of polynomials in `ω`, reduced by `ω⁴ = -1`. -/
instance : Mul CycloInt := ⟨fun x y =>
  ⟨x.x₀ * y.x₀ - (x.x₁ * y.x₃ + x.x₂ * y.x₂ + x.x₃ * y.x₁),
   x.x₀ * y.x₁ + x.x₁ * y.x₀ - (x.x₂ * y.x₃ + x.x₃ * y.x₂),
   x.x₀ * y.x₂ + x.x₁ * y.x₁ + x.x₂ * y.x₀ - x.x₃ * y.x₃,
   x.x₀ * y.x₃ + x.x₁ * y.x₂ + x.x₂ * y.x₁ + x.x₃ * y.x₀⟩⟩

/-- The product with an integer. -/
def scale (x : CycloInt) (n : Int) : CycloInt := ⟨x.x₀ * n, x.x₁ * n, x.x₂ * n, x.x₃ * n⟩

/-- The complex conjugate. -/
def conj (x : CycloInt) : CycloInt := ⟨x.x₀, -x.x₃, -x.x₂, -x.x₁⟩

/-- The image under the automorphism that sends `ω` to `-ω`, and so `√2` to `-√2`. -/
def bullet (x : CycloInt) : CycloInt := ⟨x.x₀, -x.x₁, x.x₂, -x.x₃⟩

/-- The product with `ω`. -/
def timesOmega (x : CycloInt) : CycloInt := ⟨-x.x₃, x.x₀, x.x₁, x.x₂⟩

/-- The product with `ωⁿ` for any integer `n`. -/
def timesOmegaPow (x : CycloInt) (n : Int) : CycloInt := Nat.repeat timesOmega (n % 8).toNat x

/-- The product with `√2`. -/
def timesRoot (x : CycloInt) : CycloInt :=
  ⟨x.x₁ - x.x₃, x.x₀ + x.x₂, x.x₁ + x.x₃, x.x₂ - x.x₀⟩

/-- Whether `√2` divides the number: both pairs of opposite coefficients agree modulo two. -/
def isEven (x : CycloInt) : Bool := (x.x₃ - x.x₁) % 2 = 0 && (x.x₂ - x.x₀) % 2 = 0

/-- The quotient by `√2`, when it lies in the ring. -/
def overRoot? (x : CycloInt) : Option CycloInt :=
  if x.isEven then
    some ⟨(x.x₁ - x.x₃) / 2, (x.x₀ + x.x₂) / 2, (x.x₁ + x.x₃) / 2, (x.x₂ - x.x₀) / 2⟩
  else none

instance : RootTwoRing CycloInt where
  timesRoot := timesRoot
  overRoot? := overRoot?
  bullet := bullet

/-- The number of `ℤ[√2]` that this equals, if it is real. -/
def toQuad? (x : CycloInt) : Option QuadInt :=
  if x.x₂ = 0 ∧ x.x₁ = -x.x₃ then some ⟨x.x₀, x.x₁⟩ else none

/-- The squared absolute value, a member of `ℤ[√2]`. -/
def absSq (x : CycloInt) : QuadInt :=
  ⟨x.x₃ * x.x₃ + x.x₂ * x.x₂ + x.x₁ * x.x₁ + x.x₀ * x.x₀,
   x.x₁ * x.x₀ - x.x₃ * x.x₀ + x.x₂ * x.x₁ + x.x₃ * x.x₂⟩

/-- The norm, the product of all four conjugates. -/
def norm (x : CycloInt) : Int := x.absSq.norm

/-- Division with remainder: the four coordinates of the exact quotient are rounded to the nearest
integer. There is none by zero. -/
def divRem? (x y : CycloInt) : Option (CycloInt × CycloInt) :=
  let n := y.norm
  if n = 0 then none
  else
    let cofactor := y.conj * y.bullet * y.bullet.conj
    let p := x * cofactor
    let q : CycloInt :=
      ⟨nearestQuotient p.x₀ n, nearestQuotient p.x₁ n, nearestQuotient p.x₂ n, nearestQuotient p.x₃ n⟩
    some (q, x - q * y)

instance : EuclideanDivision CycloInt where
  size x := x.norm.natAbs
  divRem? := divRem?

/-- The quotient of `x` by `y` when `y` divides `x`. -/
def quotient? (x y : CycloInt) : Option CycloInt := EuclideanDivision.exactQuotient? x y

/-- A greatest common divisor, defined up to a unit. -/
def gcd (x y : CycloInt) : CycloInt := EuclideanDivision.gcd x y

/-- The `e`-th power. -/
def pow (x : CycloInt) : Nat → CycloInt
  | 0 => 1
  | e + 1 => pow x e * x

end CycloInt

end CliffordT

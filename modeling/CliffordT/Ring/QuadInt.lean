import CliffordT.Ring.Division
import CliffordT.Ring.RootTwo

/-!
The ring `ℤ[√2]`: arithmetic, conjugation and norm, the order inherited from the real numbers,
Euclidean division, and powers of the fundamental unit `λ = 1 + √2`.
-/

namespace CliffordT

/-- The number `a + b√2`. -/
structure QuadInt where
  /-- The integer part. -/
  a : Int
  /-- The coefficient of `√2`. -/
  b : Int
  deriving DecidableEq, Repr, Inhabited

namespace QuadInt

/-- An integer as a member of `ℤ[√2]`. -/
def ofInt (n : Int) : QuadInt := ⟨n, 0⟩

instance : Zero QuadInt := ⟨ofInt 0⟩
instance : One QuadInt := ⟨ofInt 1⟩
instance : Add QuadInt := ⟨fun x y => ⟨x.a + y.a, x.b + y.b⟩⟩
instance : Sub QuadInt := ⟨fun x y => ⟨x.a - y.a, x.b - y.b⟩⟩
instance : Neg QuadInt := ⟨fun x => ⟨-x.a, -x.b⟩⟩
instance : Mul QuadInt := ⟨fun x y => ⟨x.a * y.a + 2 * (x.b * y.b), x.a * y.b + x.b * y.a⟩⟩

/-- The product with an integer. -/
def scale (x : QuadInt) (n : Int) : QuadInt := ⟨x.a * n, x.b * n⟩

/-- The conjugate `a - b√2`. -/
def bullet (x : QuadInt) : QuadInt := ⟨x.a, -x.b⟩

/-- The norm `a² - 2b²`, the product of a number with its conjugate. -/
def norm (x : QuadInt) : Int := x.a * x.a - 2 * (x.b * x.b)

/-- The product with `√2`. -/
def timesRoot (x : QuadInt) : QuadInt := ⟨2 * x.b, x.a⟩

/-- Whether `√2` divides the number, which is to say that its integer part is even. -/
def isEven (x : QuadInt) : Bool := x.a % 2 = 0

/-- The quotient by `√2`, when it lies in the ring. -/
def overRoot? (x : QuadInt) : Option QuadInt :=
  if x.isEven then some ⟨x.b, x.a / 2⟩ else none

instance : RootTwoRing QuadInt where
  timesRoot := timesRoot
  overRoot? := overRoot?
  bullet := bullet

/-- The sign of the real number `a + b√2`. Where the two terms have opposite signs, `a²` is compared
with `2b²`. -/
def sign (x : QuadInt) : Ordering :=
  match compare x.a 0, compare x.b 0 with
  | .eq, s => s
  | s, .eq => s
  | .gt, .gt => .gt
  | .lt, .lt => .lt
  | .gt, .lt => compare (x.a * x.a) (2 * (x.b * x.b))
  | .lt, .gt => compare (2 * (x.b * x.b)) (x.a * x.a)

/-- Whether the number and its conjugate are both nonnegative. -/
def isTotallyNonneg (x : QuadInt) : Bool := x.sign != .lt && x.bullet.sign != .lt

/-- Division with remainder: both coordinates of the exact quotient are rounded to the nearest
integer. There is none by zero. -/
def divRem? (x y : QuadInt) : Option (QuadInt × QuadInt) :=
  let n := y.norm
  if n = 0 then none
  else
    let p := x * y.bullet
    let q : QuadInt := ⟨nearestQuotient p.a n, nearestQuotient p.b n⟩
    some (q, x - q * y)

instance : EuclideanDivision QuadInt where
  size x := x.norm.natAbs
  divRem? := divRem?

/-- The quotient of `x` by `y` when `y` divides `x`. -/
def quotient? (x y : QuadInt) : Option QuadInt := EuclideanDivision.exactQuotient? x y

/-- A greatest common divisor, defined up to a unit. -/
def gcd (x y : QuadInt) : QuadInt := EuclideanDivision.gcd x y

/-- The `e`-th power, by squaring. -/
def pow (x : QuadInt) (e : Nat) : QuadInt :=
  if e = 0 then 1
  else
    let half := pow (x * x) (e / 2)
    if e % 2 = 1 then half * x else half
termination_by e
decreasing_by omega

/-- The fundamental unit `λ = 1 + √2`. -/
def lambda : QuadInt := ⟨1, 1⟩

/-- The inverse `-1 + √2` of the fundamental unit. -/
def lambdaInv : QuadInt := ⟨-1, 1⟩

/-- The unit `λⁿ` for any integer `n`. -/
def lambdaPow : Int → QuadInt
  | .ofNat n => lambda.pow n
  | .negSucc n => lambdaInv.pow (n + 1)

end QuadInt

end CliffordT

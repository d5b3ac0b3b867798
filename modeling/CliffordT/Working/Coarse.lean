import CliffordT.Number.Bits
import CliffordT.Working.Log

/-!
Coarse numbers with infinities, for decisions that need a rough size only.

The logarithm of a number that is not positive is minus infinity, and sums of opposite infinities are
undefined. An undefined number compares with nothing.
-/

namespace CliffordT

/-- A coarse number, an infinity, or nothing meaningful. -/
inductive Coarse where
  /-- A finite number. -/
  | finite (x : CoarseReal)
  /-- An infinity, with its sign. -/
  | infinite (negative : Bool)
  /-- No number. -/
  | undefined
  deriving Repr

namespace Coarse

/-- An integer. -/
def ofInt (n : Int) : Coarse := .finite (Approx.ofInt n)

/-- The number with the other sign. -/
def neg : Coarse → Coarse
  | .finite x => .finite (-x)
  | .infinite s => .infinite (!s)
  | .undefined => .undefined

/-- The sum. -/
def add : Coarse → Coarse → Coarse
  | .finite x, .finite y => .finite (x + y)
  | .undefined, _ => .undefined
  | _, .undefined => .undefined
  | .infinite s, .infinite t => if s = t then .infinite s else .undefined
  | .infinite s, .finite _ => .infinite s
  | .finite _, .infinite t => .infinite t

instance : Neg Coarse := ⟨neg⟩
instance : Add Coarse := ⟨add⟩
instance : Sub Coarse := ⟨fun x y => add x (neg y)⟩

/-- The quotient by a positive finite number. -/
def dividedBy : Coarse → CoarseReal → Coarse
  | .finite x, y => .finite (x / y)
  | x, _ => x

/-- The order of two numbers, if both mean something. -/
def order? : Coarse → Coarse → Option Ordering
  | .finite x, .finite y => some (x.order y)
  | .undefined, _ => none
  | _, .undefined => none
  | .infinite s, .infinite t => some (compare t.toNat s.toNat)
  | .infinite s, .finite _ => some (if s then .lt else .gt)
  | .finite _, .infinite t => some (if t then .gt else .lt)

/-- Whether the first number is less than the second. -/
def less (x y : Coarse) : Bool := order? x y = some .lt

/-- Whether the first number is at most the second. -/
def atMost (x y : Coarse) : Bool := order? x y = some .lt || order? x y = some .eq

/-- The smaller of two numbers; a number that means nothing is passed over. -/
def smaller (x y : Coarse) : Coarse :=
  match x, y with
  | .undefined, y => y
  | x, .undefined => x
  | x, y => if less y x then y else x

/-- The bound for integers taken from coarse numbers. -/
def wordBound : Int := twoPow 63

/-- The largest integer at most a number, moved into the range of 64-bit words; zero for no number. -/
def floorWord : Coarse → Int
  | .finite x => max (-wordBound) (min (wordBound - 1) x.floor)
  | .infinite s => if s then -wordBound else wordBound - 1
  | .undefined => 0

/-- The nearest integer, halves away from zero, moved into the range of 64-bit words. -/
def nearestWord : Coarse → Int
  | .finite x =>
    let n := if x.mant < 0 then -(-x).nearest else x.nearest
    max (-wordBound) (min (wordBound - 1) n)
  | .infinite s => if s then -wordBound else wordBound - 1
  | .undefined => 0

/-- The name of a number that is not finite. -/
def nonFiniteName : Coarse → String
  | .finite _ => "finite"
  | .infinite s => if s then "-inf" else "inf"
  | .undefined => "NaN"

end Coarse

namespace Approx

variable {p : Nat}

/-- The coarse value of a number. -/
def toCoarse (x : Approx p) : Coarse := .finite x.coarsen

/-- The logarithm to base two; minus infinity where the number is not positive. -/
def logCoarse (x : Approx p) : Coarse := if x.mant ≤ 0 then .infinite true else .finite x.log2

end Approx

end CliffordT

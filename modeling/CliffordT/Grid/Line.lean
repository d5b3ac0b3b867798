import CliffordT.Grid.Progress
import CliffordT.Plane.Interval
import CliffordT.Working.Embedding
import CliffordT.Working.Instances

/-!
The one-dimensional grid problem: all `α` in `ℤ[√2]` with `α` in one interval and its conjugate in another.

The first interval is split in half until the product of the two lengths is small. The numbers of a small piece are found
by multiplying with the power of `λ` that makes both lengths nearly equal: the scaled numbers `a + b√2` then
have few possible `b`, and few `a` for each of them. Every candidate is scaled back and tested in the piece. Upper
halves leave out their lower end, so that no number is found twice.
-/

namespace CliffordT.Line

open Scalar

/-- A part of the problem. -/
structure Piece (K : Type) where
  /-- Where the numbers lie. -/
  i : Interval K
  /-- Where their conjugates lie. -/
  j : Interval K
  /-- Whether the lower end of the first interval is left out. -/
  openBelow : Bool

/-- A small piece in the course of enumeration. -/
structure Leaf (K : Type) where
  /-- The piece. -/
  piece : Piece K
  /-- The unit that scales a candidate back. -/
  unscale : QuadInt
  /-- The first interval, scaled. -/
  i : Interval K
  /-- The second interval, scaled. -/
  j : Interval K
  /-- The next `a` to try. -/
  a : Int
  /-- The last `a` to try for the current `b`. -/
  aLast : Int
  /-- The current `b`. -/
  b : Int
  /-- The last `b` to try. -/
  bLast : Int

/-- How the numbers found become the numbers asked for. -/
inductive Lift where
  /-- They are the numbers asked for. -/
  | plain
  /-- The numbers asked for are these times `√2`, plus an integer. -/
  | parity (p : Int)
  deriving DecidableEq, Repr

/-- The state of an enumeration. -/
structure State (K : Type) where
  /-- The pieces that are still to do, in order. -/
  pieces : List (Piece K)
  /-- The piece at work. -/
  leaf : Option (Leaf K)
  /-- What is done with a number that is found. -/
  lift : Lift

/-- The product of the lengths up to which a piece is not split. -/
def maxArea : Int := 64

/-- The number that is asked for, from one that is found. -/
def Lift.apply : Lift → QuadInt → QuadInt
  | .plain, x => x
  | .parity p, x => QuadInt.ofInt p + x.timesRoot

variable {K : Type} [NumericScalar K]

/-- The exponent of the power of `λ` that makes two lengths nearly equal; zero if one of them is zero. -/
def balance (first second : K) : Int :=
  match NumericScalar.log2 first, NumericScalar.log2 second with
  | .finite x, .finite y => (Coarse.dividedBy (.finite (y - x)) (LambdaPower.log2Base.shift 1)).nearestWord
  | _, _ => 0

/-- The powers `λⁿ` and `(-λ⁻¹)ⁿ`. -/
def lambdaPowers (n : Int) : K × K :=
  let base : K := if 0 ≤ n then lambda else lambdaInv
  let baseBullet : K := if 0 ≤ n then -lambdaInv else -lambda
  (Nat.repeat (· * base) n.natAbs 1, Nat.repeat (· * baseBullet) n.natAbs 1)

/-- The range of `a` for a given `b`, with one step more on both sides for rounding. -/
def Leaf.withB (l : Leaf K) (b : Int) : Leaf K :=
  let c : K := scale rootTwo b
  let lo := larger (l.i.lo - c) (l.j.lo + c)
  let hi := smaller (l.i.hi - c) (l.j.hi + c)
  { l with b := b, a := NumericScalar.ceil lo - 1, aLast := NumericScalar.floor hi + 1 }

/-- Begins a piece: both intervals are scaled, and the range of `b` has one step more on both sides for rounding. -/
def Leaf.ofPiece (p : Piece K) : Leaf K :=
  let n := balance p.i.width p.j.width
  let (power, powerBullet) := lambdaPowers n
  let i := p.i.scale power
  let j := p.j.scale powerBullet
  let twoRoots : K := scale rootTwo 2
  let bFirst := NumericScalar.ceil ((i.lo - j.hi) / twoRoots) - 1
  let bLast := NumericScalar.floor ((i.hi - j.lo) / twoRoots) + 1
  Leaf.withB ⟨p, QuadInt.lambdaPow (-n), i, j, 0, 0, bFirst, bLast⟩ bFirst

/-- Whether a number belongs to a piece. -/
def Piece.accepts (p : Piece K) (alpha : QuadInt) : Bool :=
  let x : K := alpha.eval
  let above := if p.openBelow then less p.i.lo x else atMost p.i.lo x
  above && atMost x p.i.hi && p.j.contains alpha.bullet.eval

/-- Whether both intervals of a piece have numbers in them. -/
def Piece.isEmpty (p : Piece K) : Bool := p.i.isEmpty || p.j.isEmpty

/-- Whether a piece has to be split. -/
def Piece.isLarge (p : Piece K) : Bool :=
  Coarse.less (Coarse.ofInt maxArea) (NumericScalar.coarse (p.i.width * p.j.width))

/-- The two halves of a piece. -/
def Piece.halves (p : Piece K) : List (Piece K) :=
  [{ p with i := p.i.lowerHalf }, { p with i := p.i.upperHalf, openBelow := true }]

/-- The step of a piece at work: the next candidate, or the next `b`. -/
def Leaf.step (l : Leaf K) : Progress (Leaf K) QuadInt :=
  if l.bLast < l.b then .done
  else if l.a ≤ l.aLast then
    let alpha := (⟨l.a, l.b⟩ : QuadInt) * l.unscale
    let l := { l with a := l.a + 1 }
    if l.piece.accepts alpha then .found alpha l else .quiet l
  else if l.b < l.bLast then .quiet (l.withB (l.b + 1))
  else .done

/-- The step of the enumeration. -/
def step (s : State K) : Progress (State K) QuadInt :=
  match s.leaf with
  | some l =>
    match l.step with
    | .done => .quiet { s with leaf := none }
    | .quiet l => .quiet { s with leaf := some l }
    | .found x l => .found (s.lift.apply x) { s with leaf := some l }
  | none =>
    match s.pieces with
    | [] => .done
    | p :: rest =>
      if p.isEmpty then .quiet { s with pieces := rest }
      else if p.isLarge then .quiet { s with pieces := p.halves ++ rest }
      else .quiet { s with pieces := rest, leaf := some (Leaf.ofPiece p) }

/-- The problem for two intervals. -/
def withLift (i j : Interval K) (lift : Lift) : State K := ⟨[⟨i, j, false⟩], none, lift⟩

/-- All numbers in the first interval whose conjugates lie in the second. -/
def plain (i j : Interval K) : State K := withLift i j .plain

/-- The powers `√2 ^ m` and `(-√2) ^ m`. -/
def rootPowers (m : Nat) : K × K :=
  let even : K := shift 1 (m / 2 : Nat)
  if m % 2 = 1 then (even * rootTwo, -(even * rootTwo)) else (even, even)

/-- All numbers `α` with `α / √2 ^ m` in the first interval and the conjugate in the second. -/
def scaled (i j : Interval K) (m : Nat) : State K :=
  let (s, sBullet) := rootPowers m
  plain (i.scale s) (j.scale sBullet)

/-- The numbers of `scaled` whose integer part is congruent to `p` modulo two. They are `p + √2 γ`, where `γ` solves a problem
for intervals moved by `p` and divided by `√2`. -/
def scaledWithParity (i j : Interval K) (m : Nat) (p : Int) : State K :=
  let (s, sBullet) := rootPowers m
  let offset : K := ofInt p
  withLift (((i.scale s).shift (-offset)).scale invRootTwo)
    ((((j.scale sBullet).scale (-1)).shift offset).scale invRootTwo) (.parity p)

end CliffordT.Line

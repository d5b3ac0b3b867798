import CliffordT.Number.Modular
import CliffordT.Number.Words

/-!
Primality by the test of Miller and Rabin.

Twelve fixed bases are always tried. A number of more than 81 bits is also tested with random bases.
-/

namespace CliffordT.Prime

/-- The fixed bases. -/
def bases : List Nat := [2, 3, 5, 7, 11, 13, 17, 19, 23, 29, 31, 37]

/-- The longest numbers, in bits, for which the fixed bases are taken to decide. -/
def decidedBits : Nat := 81

/-- How many random bases are tried beyond that length. -/
def randomBases : Nat := 8

/-- Whether one of the next `k` squarings of `x` gives `-1` modulo `n`. -/
def squaresToMinusOne (n : Nat) : Nat → Nat → Bool
  | 0, _ => false
  | k + 1, x =>
    let y := x * x % n
    y = n - 1 || squaresToMinusOne n k y

/-- Whether a base proves `n = d * 2 ^ s + 1` composite. -/
def isWitness (n d s base : Nat) : Bool :=
  let x := Modular.pow n base d
  !(x = 1 || x = n - 1 || squaresToMinusOne n (s - 1) x)

/-- Whether none of the next `count` random bases proves `n` composite. -/
def passesRandom (n d s : Nat) : Nat → Words → Bool × Words
  | 0, w => (true, w)
  | count + 1, w =>
    let (x, w) := w.below (n - 3)
    if isWitness n d s (x + 2) then (false, w) else passesRandom n d s count w

/-- Whether a number passes every test; a prime always does. -/
def isProbable (n : Int) (w : Words) : Bool × Words :=
  let m := n.toNat
  if m < 2 then (false, w)
  else if bases.any (m = ·) then (true, w)
  else if bases.any (m % · = 0) then (false, w)
  else
    let (s, d) := Modular.splitTwos (m - 1)
    if bases.any (isWitness m d s) then (false, w)
    else if m.log2 + 1 ≤ decidedBits then (true, w)
    else passesRandom m d s randomBases w

end CliffordT.Prime

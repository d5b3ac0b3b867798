/-!
The length of natural numbers in binary digits, and the powers of two and ten.
-/

namespace CliffordT

/-- The number of binary digits; zero has none. -/
def bitLength (n : Nat) : Nat := if n = 0 then 0 else n.log2 + 1

/-- The power of two with exponent `n`. -/
def twoPow (n : Nat) : Nat := Nat.pow 2 n

/-- The power of ten with exponent `n`. -/
def tenPow (n : Nat) : Nat := Nat.pow 10 n

theorem twoPow_pos (n : Nat) : 0 < twoPow n := Nat.pow_pos (by decide)

theorem tenPow_pos (n : Nat) : 0 < tenPow n := Nat.pow_pos (by decide)

end CliffordT

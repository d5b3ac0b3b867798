import CliffordT.Number.Bits

/-!
Integer square roots by Newton's method.
-/

namespace CliffordT

/-- Newton's iteration for the square root of `n`, from a start that is not too small, while it falls. -/
def newtonRoot (n x : Nat) : Nat :=
  let y := (x + n / x) / 2
  if y < x then newtonRoot n y else x
termination_by x

/-- The largest natural number whose square is at most `n`. -/
def natRoot (n : Nat) : Nat := if n = 0 then 0 else newtonRoot n (twoPow (n.log2 / 2 + 1))

end CliffordT

import CliffordT.Number.Bits

/-!
The constant `π` as an integer, by Machin's formula `π = 16 arctan (1/5) - 4 arctan (1/239)`.

The series are summed with truncated integer terms at sixteen extra bits, which are dropped at the end.
-/

namespace CliffordT.Machin

/-- Adds the terms `± power / (x² (2n + 1))`, `± power / (x⁴ (2n + 3))` and so on to `sum`, with a minus sign at odd
`n`, until the power vanishes. -/
def arctanTail (square power n : Nat) (sum : Int) : Int :=
  let next := power / square
  if next = 0 ∨ power ≤ next then sum
  else
    let term : Int := next / (2 * n + 1)
    arctanTail square next (n + 1) (if n % 2 = 1 then sum - term else sum + term)
termination_by power

/-- The value `2 ^ bits * arctan (1/x)`, nearly. -/
def arctanInv (x bits : Nat) : Int :=
  let first := twoPow bits / x
  arctanTail (x * x) first 1 first

/-- The extra bits carried while the series are summed. -/
def extraBits : Nat := 16

/-- The value `2 ^ bits * π`, nearly. -/
def scaledPi (bits : Nat) : Int :=
  let work := bits + extraBits
  (arctanInv 5 work * 16 - arctanInv 239 work * 4) / twoPow extraBits

end CliffordT.Machin

import CliffordT.Number.Bits

/-!
Decimal numerals.

A long number is cut in half by a power of ten, and its halves are written one after the other, so that the time grows
hardly faster than that of a division.
-/

namespace CliffordT.Numeral

/-- Writes `2 ^ level` decimal digits of `n`, with leading zeros, before the characters in `behind`. -/
def padded : (level n : Nat) → (behind : List Char) → List Char
  | 0, n, behind => Nat.digitChar n :: behind
  | level + 1, n, behind =>
    let half := tenPow (twoPow level)
    padded level (n / half) (padded level (n % half) behind)

/-- A level with enough digits for a number; three binary digits make less than one decimal digit. -/
def levelFor (n : Nat) : Nat := (n.log2 / 3 + 1).log2 + 1

/-- The digits of a natural number, without leading zeros. -/
def digits (n : Nat) : List Char :=
  if n < 10 then [Nat.digitChar n] else (padded (levelFor n) n []).dropWhile (· = '0')

/-- The numeral of a natural number. -/
def ofNat (n : Nat) : String := String.ofList (digits n)

/-- The numeral of an integer, with a sign if it is negative. -/
def ofInt (n : Int) : String := if n < 0 then "-" ++ ofNat n.natAbs else ofNat n.natAbs

end CliffordT.Numeral

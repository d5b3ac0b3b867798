import CliffordT.Literal.Basic
import CliffordT.Number.Bits
import CliffordT.Text.Blank

/-!
Reading real literals.

A literal is an optional sign, then `pi` in letters of any case, a decimal, a decimal followed by `*pi`, or `pi*` followed
by a decimal; then possibly a slash and a second decimal, which is not zero. A decimal has at least one digit, at most one
point, and possibly an exponent of at most 100000 in absolute value. Blanks are allowed at the ends and
around the parts.
-/

namespace CliffordT.Literal

/-- The characters up to the first one with a property, and those behind it if there is one. -/
def splitFirst (stop : Char → Bool) : List Char → List Char × Option (List Char)
  | [] => ([], none)
  | c :: cs =>
    if stop c then ([], some cs)
    else
      let (before, behind) := splitFirst stop cs
      (c :: before, behind)

/-- The number written by decimal digits. -/
def digitsValue (cs : List Char) : Nat := cs.foldl (fun n c => 10 * n + (c.toNat - '0'.toNat)) 0

/-- A nonnegative decimal `digits * 10 ^ power`. -/
structure DecimalNumber where
  /-- All digits as one number. -/
  digits : Nat
  /-- The exponent of ten, a word. -/
  power : Int64
  deriving DecidableEq, Repr

namespace DecimalNumber

/-- How many factors of ten a word stands for: the lower half of its bits. -/
def count (power : Int64) : Nat := power.toUInt64.toUInt32.toNat

/-- The numerator of a decimal, with every positive power of ten multiplied in. -/
def num (d : DecimalNumber) : Nat := if 0 ≤ d.power then d.digits * tenPow (count d.power) else d.digits

/-- The denominator of a decimal, a power of ten. -/
def den (d : DecimalNumber) : Nat := if 0 ≤ d.power then 1 else tenPow (count (-d.power))

theorem den_pos (d : DecimalNumber) : 0 < d.den := by
  rw [den]
  split
  · exact Nat.one_pos
  · exact tenPow_pos _

end DecimalNumber

/-- The largest exponent of a decimal, in absolute value. -/
def maxExponent : Nat := 100000

/-- Takes the sign of an integer off: whether it is negative, and the rest. -/
def takeIntegerSign : List Char → Bool × List Char
  | '-' :: cs => (true, cs)
  | '+' :: cs => (false, cs)
  | cs => (false, cs)

/-- An integer as a word, if it fits. -/
def wordOf? (n : Int) : Option Int64 :=
  if Int64.minValue.toInt ≤ n ∧ n ≤ Int64.maxValue.toInt then some (Int64.ofInt n) else none

/-- Reads an integer that fits into a word. -/
def readWord? (cs : List Char) : Option Int64 :=
  let (negative, digits) := takeIntegerSign cs
  if digits.isEmpty || !digits.all Char.isDigit then none
  else wordOf? (if negative then -(digitsValue digits : Int) else digitsValue digits)

/-- Reads the exponent of a decimal. The absolute value is that of words, so the least word, which is its own
negative, does not exceed the bound. -/
def readExponent? (cs : List Char) : Option Int64 :=
  (readWord? cs).filter fun e => e.abs ≤ Int64.ofNat maxExponent

/-- Reads the part of a decimal before the exponent. -/
def readMantissa? (cs : List Char) (exponent : Int64) : Option DecimalNumber :=
  let (whole, behind) := splitFirst (· = '.') cs
  let fraction := behind.getD []
  let digits := whole ++ fraction
  if digits.isEmpty || !digits.all Char.isDigit then none
  else some ⟨digitsValue digits, exponent - Int64.ofNat fraction.length⟩

/-- Reads a decimal without sign. -/
def readDecimal? (cs : List Char) : Option DecimalNumber :=
  match splitFirst (fun c => c = 'e' || c = 'E') cs with
  | (body, none) => readMantissa? body 0
  | (body, some exponent) => (readExponent? exponent).bind (readMantissa? body)

/-- The characters before a given ending, if they end so. -/
def dropEnding? (ending cs : List Char) : Option (List Char) :=
  if ending.isSuffixOf cs then some (cs.take (cs.length - ending.length)) else none

/-- The characters behind a given beginning, if they begin so. -/
def dropBeginning? (beginning cs : List Char) : Option (List Char) :=
  if beginning.isPrefixOf cs then some (cs.drop beginning.length) else none

/-- Reads what stands before the slash, without its sign: a decimal and whether it is multiplied by `π`. -/
def readNumerator? (cs : List Char) : Option (DecimalNumber × Bool) :=
  if cs.map Char.toLower = ['p', 'i'] then some (⟨1, 0⟩, true)
  else
    match (dropEnding? "*pi".toList cs).orElse fun _ => dropBeginning? "pi*".toList cs with
    | some coefficient => (readDecimal? (trimBlanks coefficient)).map (·, true)
    | none => (readDecimal? cs).map (·, false)

/-- Takes the sign off: whether it is negative, and the rest. -/
def takeSign : List Char → Bool × List Char
  | '-' :: cs => (true, trimBlanks cs)
  | '+' :: cs => (false, trimBlanks cs)
  | cs => (false, trimBlanks cs)

/-- A literal from its parts: sign, numerator and denominator. -/
def ofParts (negative timesPi : Bool) (n d : DecimalNumber) (h : 0 < d.num) : Literal where
  num := if negative then -((n.num * d.den : Nat) : Int) else (n.num * d.den : Nat)
  den := n.den * d.num
  timesPi := timesPi
  den_pos := Nat.mul_pos n.den_pos h

/-- Reads a literal from text without blanks at the ends. -/
def readTrimmed (cs : List Char) : Except DomainFault Literal :=
  let whole := String.ofList cs
  let (before, behind) := splitFirst (· = '/') cs
  let (negative, numerator) := takeSign (trimBlanks before)
  match readNumerator? numerator with
  | none => .error (.unreadable whole)
  | some (n, timesPi) =>
    match behind with
    | none => .ok (ofParts negative timesPi n ⟨1, 0⟩ (by decide))
    | some behind =>
      match readDecimal? (trimBlanks behind) with
      | none => .error (.unreadable whole)
      | some d =>
        if h : 0 < d.num then .ok (ofParts negative timesPi n d h)
        else .error (.zeroDenominator whole)

/-- Reads a literal. -/
def ofText (s : String) : Except Failure Literal :=
  match readTrimmed (trimBlanks s.toList) with
  | .ok l => .ok l
  | .error fault => .error (.domain fault)

end CliffordT.Literal

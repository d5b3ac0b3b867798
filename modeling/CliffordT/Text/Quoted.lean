import CliffordT.Text.Unprintable

/-!
Quoted text as it appears inside messages.

A text stands between double quotes and a character between single quotes. The quote of its own kind, the
backslash and the four common controls are written with a backslash, other characters that do not
show by their code point in lower-case hexadecimal digits.
-/

namespace CliffordT.Quoted

/-- The written form of one character inside quotes of the given kind. -/
def escape (quote c : Char) : String :=
  if c = quote then "\\" ++ quote.toString
  else if c = '\\' then "\\\\"
  else if c = '\n' then "\\n"
  else if c = '\t' then "\\t"
  else if c = '\r' then "\\r"
  else if c.toNat = 0 then "\\0"
  else if isUnprintable c then
    "\\u\x7b" ++ String.ofList (Nat.toDigits 16 c.toNat) ++ "\x7d"
  else c.toString

/-- A text between double quotes. -/
def text (s : String) : String :=
  "\"" ++ String.join (s.toList.map (escape '"')) ++ "\""

/-- A character between single quotes. -/
def character (c : Char) : String := "'" ++ escape '\'' c ++ "'"

end CliffordT.Quoted

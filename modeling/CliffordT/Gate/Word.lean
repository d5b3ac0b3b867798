import CliffordT.Failure
import CliffordT.Text.Blank

/-!
Gates, and words of gates read as matrix products in written order: in `HT` the gate `T` acts first.
-/

namespace CliffordT

/-- The gates that words are made of. -/
inductive Gate where
  /-- The Hadamard gate. -/
  | H
  /-- The diagonal gate with entries `1` and `ω`. -/
  | T
  /-- The diagonal gate with entries `1` and `i`. -/
  | S
  /-- The gate that swaps the basis states. -/
  | X
  /-- The global phase `ω`. -/
  | W
  deriving DecidableEq, Repr

namespace Gate

/-- The letter of a gate. -/
def letter : Gate → Char
  | H => 'H'
  | T => 'T'
  | S => 'S'
  | X => 'X'
  | W => 'W'

/-- The gate with a given letter. -/
def ofLetter (c : Char) : Except Failure Gate :=
  match c with
  | 'H' => .ok H
  | 'T' => .ok T
  | 'S' => .ok S
  | 'X' => .ok X
  | 'W' => .ok W
  | c => .error (.domain (.unknownGate c))

end Gate

/-- A word of gates. -/
abbrev GateWord := List Gate

namespace GateWord

/-- Reads a word letter by letter, passing over white space. -/
def ofText (s : String) : Except Failure GateWord :=
  (s.toList.filter fun c => !isBlank c).mapM Gate.ofLetter

/-- The letters of a word. -/
def text (word : GateWord) : String := String.ofList (word.map Gate.letter)

/-- The number of gates `T`. -/
def tCount (word : GateWord) : Nat := word.count .T

end GateWord

end CliffordT

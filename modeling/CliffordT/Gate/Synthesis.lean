import CliffordT.Gate.Levels
import CliffordT.Gate.Operator

/-!
Exact synthesis: a word of gates for a unitary operator with entries in `𝔻[ω]`.

Multiplying by `H T^-j` from the left lowers the denominator exponent of `|z|²` for one of four `j` as long as the
exponent is at least four. Below that a short search finds the way to exponent zero, and a last search
writes what is left with `X`, `S` and `W`, after one `T` if the phase is odd.
-/

namespace CliffordT.Synthesis

variable {E : Type} [Exponent E]

/-- From this exponent on a single step always makes progress. -/
def greedyFloor : Nat := 4

/-- The most steps tried below that exponent. -/
def searchDepth : Nat := 6

/-- A bound for the length of a word in `X`, `S` and `W`, which make sixty-four operators. -/
def tailDepth : Nat := 64

/-- The word for `T ^ j`, written with `S` as far as possible. -/
def tPower (j : Nat) : GateWord := List.replicate (j / 2) .S ++ List.replicate (j % 2) .T

/-- The operator `H T^-j u`. -/
def lower (u : QubitOp E) (j : Nat) : QubitOp E := (u.timesT (-(j : Int))).apply .H

/-- The word that undoes `lower`. -/
def raise (j : Nat) : GateWord := tPower j ++ [.H]

/-- Lowers the exponent below the floor: the word split off and the operator that is left. -/
def descend (u : QubitOp E) : Except Failure (GateWord × QubitOp E) :=
  if u.exponent < greedyFloor then .ok ([], u)
  else
    match _h : (List.range 4).find? fun j => decide ((lower u j).exponent < u.exponent) with
    | none => .error (.broken (.noLowering u.exponent u.text))
    | some j =>
      match descend (lower u j) with
      | .error e => .error e
      | .ok (word, rest) => .ok (raise j ++ word, rest)
termination_by u.exponent
decreasing_by simpa using List.find?_some _h

/-- Takes an operator to exponent zero by a shortest sequence of steps. -/
def finish (u : QubitOp E) : Except Failure (GateWord × QubitOp E) :=
  let goal := fun (_, v) => decide (v.exponent = 0)
  let moves := fun ((word, v) : GateWord × QubitOp E) =>
    (List.range 4).map fun j => (word ++ raise j, lower v j)
  let same := fun (s t : GateWord × QubitOp E) => s.2.same t.2
  match Levels.find goal moves same searchDepth [([], u)] [([], u)] with
  | some found => .ok found
  | none => .error (.broken (.farFromClifford u.text searchDepth))

/-- A shortest word in `X`, `S` and `W` for an operator with integral entries and even phase. -/
def evenTail (u : QubitOp E) : Except Failure GateWord :=
  let goal := fun ((_, v) : GateWord × QubitOp E) => v.same u
  let moves := fun ((word, v) : GateWord × QubitOp E) =>
    [Gate.X, Gate.S, Gate.W].map fun g => (g :: word, v.apply g)
  let same := fun (s t : GateWord × QubitOp E) => s.2.same t.2
  let start : GateWord × QubitOp E := ([], QubitOp.identity)
  match Levels.find goal moves same tailDepth [start] [start] with
  | some (word, _) => .ok word
  | none => .error (.broken (.notClifford u.text))

/-- A word for an operator with integral entries; an odd phase costs one `T`. -/
def tail (u : QubitOp E) : Except Failure GateWord :=
  if u.phase.val % 2 = 1 then (evenTail (u.timesT (-1))).map (.T :: ·) else evenTail u

/-- A word of gates whose product is the operator. The product is formed and compared, so a word is
returned only if it is right. -/
def decompose (u : QubitOp E) : Except Failure GateWord := do
  if !u.isUnitary then
    .error (.broken (.notUnitary u.text))
  else
    let (front, rest) ← descend u
    let (middle, clifford) ← finish rest
    let back ← tail clifford
    let word := front ++ middle ++ back
    if (QubitOp.ofWord word).same u then .ok word
    else .error (.broken (.notReproduced word.text u.text))

end CliffordT.Synthesis

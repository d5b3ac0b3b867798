import CliffordT.Gate.Synthesis
import CliffordT.Grid.Points
import CliffordT.NormEquation.Solve
import CliffordT.Number.Bits
import CliffordT.Rotation.Distance
import CliffordT.Rotation.Options

/-!
The search for a word of gates close to a rotation.

For one denominator exponent after the other, the points of the segment near the target whose conjugates lie in the
disk are the candidates for the top left entry. A candidate is completed to a unitary matrix by solving
`t† t = 1 - |u|²`; one that cannot be completed, or whose equation cannot be solved within the budget, is passed
over. The first completed candidate that is close enough is written as a word.
-/

namespace CliffordT

/-- A word close to a rotation, and how it was found. -/
structure Approximation where
  /-- The gates. -/
  word : GateWord
  /-- The working precision. -/
  precision : Precision
  /-- The distance from the rotation. -/
  error : Sigma Approx
  /-- The denominator exponent of the accepted candidate. -/
  exponent : Nat
  /-- The number of candidates judged. -/
  tried : Nat
  /-- The number of candidates given up for lack of budget. -/
  timeouts : Nat

namespace Search

/-- What is counted while candidates are judged. -/
structure Tally where
  /-- The budget of the candidates to come. -/
  effort : Nat
  /-- The candidates given up since the budget was last raised. -/
  recent : Nat
  /-- The candidates given up altogether. -/
  timeouts : Nat
  /-- The candidates judged. -/
  tried : Nat
  /-- The candidates judged since the budget was last reconsidered. -/
  inBatch : Nat
  deriving DecidableEq, Repr

/-- The largest budget. -/
def maxEffort : Nat := twoPow 64 - 1

/-- Doubles the budget if enough candidates have been given up. -/
def Tally.review (o : Options) (t : Tally) : Tally :=
  let t := { t with inBatch := 0 }
  if o.growthThreshold ≤ t.recent then
    { t with effort := min (2 * t.effort) maxEffort, recent := 0 }
  else t

/-- Reviews the budget at the end of a batch. -/
def Tally.closeFullBatch (o : Options) (t : Tally) : Tally := if o.batchSize ≤ t.inBatch then t.review o else t

/-- Reviews the budget at the end of an exponent, unless that has just been done. -/
def Tally.closeBatch (o : Options) (t : Tally) : Tally := if t.inBatch = 0 then t else t.review o

/-- An accepted candidate. -/
structure Accepted (E : Type := UInt32) where
  /-- The top left entry. -/
  u : CycloFrac E
  /-- The bottom left entry. -/
  t : CycloFrac E
  /-- The distance from the rotation. -/
  error : Sigma Approx

variable {E : Type} [Exponent E]

/-- The candidate's distance from the rotation if it is within the tolerance, decided at one precision. -/
def compareError (o : Options) (u : CycloFrac E) (c : Precision) : Except Failure (Option (Sigma Approx)) :=
  let error : Approx c.bits := rotationError u o.theta.eval
  match decideOrder c.digits error o.epsilon.eval "candidate error against epsilon" with
  | .ok .gt => .ok none
  | .ok _ => .ok (some ⟨c.bits, error⟩)
  | .error failure => .error failure

/-- The same decision; if it is too close to call it is repeated at twice the digits, a number of times. -/
def checkError (o : Options) (u : CycloFrac E) (c : Precision) :
    (retries : Nat) → Except Failure (Option (Sigma Approx))
  | 0 => compareError o u c
  | retries + 1 =>
    match compareError o u c with
    | .error _ => checkError o u c.raised retries
    | decided => decided

/-- Judges one candidate. -/
def judge (o : Options) (c : Precision) (t : Tally) (u : CycloFrac E) :
    Except Failure (Option (Accepted E) × Tally) :=
  let words := Words.ofSeed (o.seed + UInt64.ofNat t.tried)
  let t := { t with tried := t.tried + 1, inBatch := t.inBatch + 1 }
  match NormEquation.solveFrac (1 - CycloFrac.absSq u) t.effort words with
  | .error (.unfactored _ _) => .ok (none, { t with timeouts := t.timeouts + 1, recent := t.recent + 1 })
  | .error failure => if failure.isRejection then .ok (none, t) else .error failure
  | .ok w =>
    if !(QubitOp.ofColumn u w).isUnitary then
      .error (.broken (.notCompleted (toString u) (toString w)))
    else
      match checkError o u c o.retries with
      | .error failure => .error failure
      | .ok none => .ok (none, t)
      | .ok (some error) => .ok (some ⟨u, w, error⟩, t)

/-- How the candidates of one exponent end. -/
inductive Verdict (E : Type := UInt32) where
  /-- A candidate was accepted. -/
  | accepted (candidate : Accepted E) (tally : Tally)
  /-- None was. -/
  | exhausted (tally : Tally)

/-- Judges the points of one exponent in order, for at most a number of steps of their enumeration. A point is judged as soon as
it is drawn. Drawing a whole batch before the first of its points is judged gives the same outcome, unless an enumeration
goes on without an end after a point that ends the search. -/
def scan {K : Type} [NumericScalar K] (o : Options) (c : Precision) (p : Points.Problem K E) :
    (steps : Nat) → Points.State K E → Tally → Except Failure (Verdict E)
  | 0, _, _ => .error .unfinished
  | steps + 1, s, t =>
    match Points.step p s with
    | .done => .ok (.exhausted (t.closeBatch o))
    | .quiet s => scan o c p steps s t
    | .found u s =>
      match judge o c t u with
      | .error failure => .error failure
      | .ok (some candidate, t) => .ok (.accepted candidate t)
      | .ok (none, t) => scan o c p steps s (t.closeFullBatch o)

/-- Goes through a number of exponents, beginning with `k`. -/
def scanFrom {K : Type} [NumericScalar K] (o : Options) (c : Precision) (first second : Region K E)
    (pair? : Option (UprightPair K E)) (k : Nat) :
    (more : Nat) → Tally → Except Failure (Nat × Accepted E × Tally)
  | 0, _ => .error (.exhausted o.maxExponent)
  | more + 1, t =>
    let (p, s) := Points.enumeration first second pair? k
    match scan o c p Progress.patience s t with
    | .error failure => .error failure
    | .ok (.accepted candidate t) => .ok (k, candidate, t)
    | .ok (.exhausted t) => scanFrom o c first second pair? (k + 1) more t

/-- The first candidate that is accepted, its exponent, and the counts. -/
def run (K E : Type) [NumericScalar K] [Exponent E] (o : Options) (c : Precision) :
    Except Failure (Nat × Accepted E × Tally) := do
  let segment : Segment K ← Segment.ofRotation o.theta.eval o.epsilon.eval
  let first : Region K E := segment.region
  let second : Region K E := Disk.region
  let pair? ← UprightPair.ofEllipses first.ellipse second.ellipse
  scanFrom o c first second pair? 0 (o.maxExponent + 1) ⟨o.effort, 0, 0, 0, 0⟩

/-- Checks a finished word against the target at twice the digits. -/
def verify (E : Type) [Exponent E] (o : Options) (c : Precision) (word : GateWord) : Except Failure Unit :=
  let c := c.raised
  let theta : Approx c.bits := o.theta.eval
  let epsilon : Approx c.bits := o.epsilon.eval
  let distance := (QubitOp.ofWord word : QubitOp E).distance theta
  if Scalar.less epsilon distance then
    .error (.broken (.offTarget word.text (Double.text (Double.ofApprox distance))
      (Double.text (Double.ofApprox epsilon))))
  else .ok ()

end Search

/-- A word of gates within the tolerance of the rotation, for exponents that are stored in a given type. -/
def approximateOver (E : Type) [Exponent E] (o : Options) : Except Failure Approximation := do
  o.validate
  let c := o.precision
  let (k, candidate, tally) ← Search.run (Approx c.bits) E o c
  let word ← Synthesis.decompose (QubitOp.ofColumn candidate.u candidate.t)
  if o.verify then
    Search.verify E o c word
  return {
    word := word
    precision := c
    error := candidate.error
    exponent := k
    tried := tally.tried
    timeouts := tally.timeouts }

/-- A word of gates within the tolerance of the rotation, with exponents in words of 32 bits. -/
def approximate (o : Options) : Except Failure Approximation := approximateOver UInt32 o

/-- The gates within a tolerance of a rotation, both given as written literals. -/
def approximateTexts (theta epsilon : String) : Except Failure GateWord := do
  let o ← Options.ofTexts theta epsilon
  let found ← approximate o
  return found.word

end CliffordT

import CliffordT.Proofs.Gate.Action
import CliffordT.Proofs.Gate.Column
import CliffordT.Proofs.Gate.Cost
import CliffordT.Proofs.Gate.Exponent
import CliffordT.Proofs.Gate.Length
import CliffordT.Proofs.Gate.Levels
import CliffordT.Proofs.Gate.Matrix
import CliffordT.Proofs.Gate.Stored
import CliffordT.Proofs.Gate.Synthesis
import CliffordT.Proofs.Gate.Unbounded
import CliffordT.Proofs.Grid.Balance
import CliffordT.Proofs.Grid.Candidates
import CliffordT.Proofs.Grid.Complete
import CliffordT.Proofs.Grid.Exact
import CliffordT.Proofs.Grid.Line
import CliffordT.Proofs.Grid.Points
import CliffordT.Proofs.Grid.Progress
import CliffordT.Proofs.Grid.Soundness
import CliffordT.Proofs.Grid.Splitting
import CliffordT.Proofs.Literal.Basic
import CliffordT.Proofs.Literal.Grammar
import CliffordT.Proofs.Literal.Reader
import CliffordT.Proofs.Literal.Text
import CliffordT.Proofs.NormEquation.GivingUp
import CliffordT.Proofs.NormEquation.PrimeAbove
import CliffordT.Proofs.NormEquation.PrimePart
import CliffordT.Proofs.NormEquation.Solve
import CliffordT.Proofs.NormEquation.UnitLog
import CliffordT.Proofs.Number.Bits
import CliffordT.Proofs.Number.Factor
import CliffordT.Proofs.Number.Modular
import CliffordT.Proofs.Number.Prime
import CliffordT.Proofs.Number.Rho
import CliffordT.Proofs.Number.SquareRoot
import CliffordT.Proofs.Number.Words
import CliffordT.Proofs.Plane.Action
import CliffordT.Proofs.Plane.Descent
import CliffordT.Proofs.Plane.Ellipse
import CliffordT.Proofs.Plane.Enclosure
import CliffordT.Proofs.Plane.Interval
import CliffordT.Proofs.Plane.Operator
import CliffordT.Proofs.Plane.Reduction
import CliffordT.Proofs.Plane.Region
import CliffordT.Proofs.Plane.Rounds
import CliffordT.Proofs.Plane.Slice
import CliffordT.Proofs.Plane.Steps
import CliffordT.Proofs.Plane.Unbounded
import CliffordT.Proofs.Ring.Automorphism
import CliffordT.Proofs.Ring.Conjugate
import CliffordT.Proofs.Ring.Cyclo
import CliffordT.Proofs.Ring.Denominator
import CliffordT.Proofs.Ring.Euclid
import CliffordT.Proofs.Ring.Order
import CliffordT.Proofs.Ring.Parity
import CliffordT.Proofs.Ring.Parts
import CliffordT.Proofs.Ring.Prime
import CliffordT.Proofs.Ring.Quad
import CliffordT.Proofs.Ring.Representation
import CliffordT.Proofs.Ring.Shift
import CliffordT.Proofs.Ring.Unbounded
import CliffordT.Proofs.Ring.Value
import CliffordT.Proofs.Rotation.Accuracy
import CliffordT.Proofs.Rotation.Batches
import CliffordT.Proofs.Rotation.Distance
import CliffordT.Proofs.Rotation.Entries
import CliffordT.Proofs.Rotation.Extent
import CliffordT.Proofs.Rotation.Norm
import CliffordT.Proofs.Rotation.Options
import CliffordT.Proofs.Rotation.Search
import CliffordT.Proofs.Rotation.Segment
import CliffordT.Proofs.Rotation.Trials
import CliffordT.Proofs.Rotation.Unbounded
import CliffordT.Proofs.Text.Blank
import CliffordT.Proofs.Text.Numeral
import CliffordT.Proofs.Working.Coarse
import CliffordT.Proofs.Working.Double
import CliffordT.Proofs.Working.Drift
import CliffordT.Proofs.Working.Exact
import CliffordT.Proofs.Working.Log
import CliffordT.Proofs.Working.Pi
import CliffordT.Proofs.Working.PiDigits
import CliffordT.Proofs.Working.Precision
import CliffordT.Proofs.Working.Representable
import CliffordT.Proofs.Working.Rounding
import CliffordT.Proofs.Working.SineCosine
import CliffordT.Proofs.Working.Trig
import CliffordT.Working.Extended

import CliffordT.Text.Quoted

/-!
Everything that can keep a computation from giving a result, by cause, and the wording of each cause.

Values are carried as the text that the message shows.
-/

namespace CliffordT

/-- What is wrong with a request. -/
inductive DomainFault where
  /-- A real literal that cannot be read. -/
  | unreadable (literal : String)
  /-- A real literal with a zero denominator. -/
  | zeroDenominator (literal : String)
  /-- A floating-point number that is infinite or undefined. -/
  | notFinite (name : String)
  /-- A letter that names no gate. -/
  | unknownGate (letter : Char)
  /-- A tolerance outside the open unit interval. -/
  | tolerance (shown : String)
  /-- A batch size of zero. -/
  | emptyBatch
  /-- A factoring effort of zero. -/
  | noEffort
  /-- A cause stated in words. -/
  | stated (text : String)
  deriving DecidableEq, Repr

/-- An assertion about the library's own work that turned out false. -/
inductive Breach where
  /-- Only positive numbers are factored. -/
  | nonPositive (value : Int)
  /-- A number has no square root modulo a supposed prime. -/
  | noRoot (value : Int) (modulus : Nat)
  /-- The number two has no square root modulo a supposed prime that is 1 or 7 modulo eight. -/
  | noRootOfTwo (modulus : Nat)
  /-- A rational prime did not split in `ℤ[√2]`. -/
  | unsplit (prime : Nat)
  /-- A common divisor has the wrong norm. -/
  | noPrimeDividing (norm : Int) (left right : String)
  /-- An inert prime divides a norm to an odd power. -/
  | oddInert (prime : Nat) (value : String)
  /-- The multiplicities of two conjugate primes do not add up. -/
  | multiplicities (first second : Nat) (value : String) (prime exponent : Nat)
  /-- An absolute value is not real. -/
  | notReal
  /-- One norm does not divide another. -/
  | notDividing (divisor value : String)
  /-- A solution of the norm equation fails the final check. -/
  | notSolving (solution value : String)
  /-- A plane operator has no inverse of the same kind. -/
  | noInverse (determinant : String)
  /-- The exponent of a reduction step is not a number. -/
  | stepOverflow (parameter : String)
  /-- No reduction step applies. -/
  | noStep
  /-- A reduction takes too many steps. -/
  | unreduced (steps : Nat)
  /-- A matrix is not unitary. -/
  | notUnitary (shown : String)
  /-- No step lowers the denominator exponent. -/
  | noLowering (exponent : Nat) (shown : String)
  /-- No Clifford operator is near enough. -/
  | farFromClifford (shown : String) (steps : Nat)
  /-- A matrix with integral entries is not a Clifford operator. -/
  | notClifford (shown : String)
  /-- A word does not multiply to the matrix it was made for. -/
  | notReproduced (word shown : String)
  /-- A candidate and its witness do not make a unitary matrix. -/
  | notCompleted (candidate witness : String)
  /-- The finished word is too far from the target. -/
  | offTarget (word distance tolerance : String)
  /-- A cause stated in words. -/
  | stated (text : String)
  deriving DecidableEq, Repr

/-- Why a computation gave no result. -/
inductive Failure where
  /-- The request is outside the domain. -/
  | domain (fault : DomainFault)
  /-- A decision could not be made at the working precision. -/
  | imprecise (digits : Nat) (decision : String)
  /-- The value is not the norm of any element of the extended ring. -/
  | notNorm (value : String)
  /-- The factoring budget ran out before this value was split. -/
  | unfactored (value : String) (effort : Nat)
  /-- No candidate was accepted up to the largest denominator exponent. -/
  | exhausted (exponent : Nat)
  /-- The library's own work is wrong. -/
  | broken (breach : Breach)
  /-- An operation was applied where it has no value, such as a division by an exact zero. -/
  | undefined
  /-- An enumeration was given up before its end. -/
  | unfinished
  deriving DecidableEq, Repr

namespace DomainFault

/-- The wording of a fault. -/
def message : DomainFault → String
  | unreadable s => "cannot parse real literal " ++ Quoted.text s
  | zeroDenominator s => "division by zero in " ++ Quoted.text s
  | notFinite name => name ++ " is not finite"
  | unknownGate c => "unknown gate " ++ Quoted.character c
  | tolerance shown => "epsilon must be strictly between 0 and 1, got " ++ shown
  | emptyBatch => "batch size must be positive"
  | noEffort => "factoring effort must be positive"
  | stated text => text

end DomainFault

namespace Breach

/-- The wording of a breach. -/
def message : Breach → String
  | nonPositive n => s!"cannot factor non-positive {n}"
  | noRoot a p => s!"{a} is not a square mod {p}"
  | noRootOfTwo p => s!"2 is not a square modulo {p}"
  | unsplit p => s!"failed to split {p}"
  | noPrimeDividing n a b => s!"no prime of norm {n} found dividing {a} and {b}"
  | oddInert p x => s!"inert prime {p} has odd exponent in the norm of {x}"
  | multiplicities i j x p e => s!"valuations {i} + {j} of {x} at {p} do not add to {e}"
  | notReal => "t†t is not real"
  | notDividing d x => s!"{d} does not divide {x}"
  | notSolving t x => s!"solution {t} does not square to {x}"
  | noInverse det => s!"grid operator with determinant {det} has no inverse"
  | stepOverflow x => s!"step parameter {x} overflowed"
  | noStep => "no reduction step"
  | unreduced n => s!"ellipse reduction did not converge after {n} steps"
  | notUnitary u => s!"{u} is not unitary"
  | noLowering k u => s!"no reducing step at sde {k} for {u}"
  | farFromClifford u n => s!"{u} not reduced to a Clifford within {n} steps"
  | notClifford u => s!"{u} is not a Clifford"
  | notReproduced w u => s!"decomposition {w} does not reproduce {u}"
  | notCompleted u t => s!"candidate {u} with witness {t} is not unitary"
  | offTarget w d eps => s!"gates {w} are {d} away from the target, more than {eps}"
  | stated text => text

end Breach

namespace Failure

/-- The wording of a failure. -/
def message : Failure → String
  | domain fault => "domain error: " ++ fault.message
  | imprecise digits decision => s!"insufficient working precision ({digits} digits): {decision}"
  | notNorm value => s!"{value} is not representable as a norm"
  | unfactored value effort => s!"factoring gave up on {value} after {effort} iterations"
  | exhausted k => s!"search exhausted after {k} denominator exponents"
  | broken breach => "invariant violated: " ++ breach.message
  | undefined => "undefined operation"
  | unfinished => "enumeration given up"

/-- Whether a search recovers from the failure by moving on to its next candidate. -/
def isRejection : Failure → Bool
  | notNorm _ | unfactored _ _ => true
  | _ => false

end Failure

end CliffordT

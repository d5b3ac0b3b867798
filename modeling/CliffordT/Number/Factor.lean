import CliffordT.Number.Prime
import CliffordT.Number.Rho
import CliffordT.Number.Root
import CliffordT.Text.Numeral

/-!
Factoring into primes under a budget.

Small primes are divided out. What is left is taken apart recursively: a probable prime is kept, a
square is replaced by its root twice, and anything else is split by the rho method. Every
composite number met gets the whole budget; the first that cannot be split is reported.
-/

namespace CliffordT.Factor

/-- Primes below this bound are found by trial division. -/
def trialBound : Nat := 1024

/-- The primes below the bound, in increasing order. -/
def smallPrimes : List Nat :=
  (List.range trialBound).filter fun p => 2 ≤ p && (List.range p).all fun d => d < 2 || p % d != 0

/-- Divides `p` out of `n` as often as it goes: the multiplicity and what is left. -/
def divideOut (p n : Nat) : Nat × Nat :=
  if _h : 2 ≤ p ∧ 0 < n ∧ n % p = 0 then
    let (e, rest) := divideOut p (n / p)
    (e + 1, rest)
  else (0, n)
termination_by n
decreasing_by exact Nat.div_lt_self _h.2.1 _h.1

/-- Divides out the listed primes: the prime divisors found, each as often as it divides, and what is left. -/
def trialDivide : List Nat → Nat → List Nat × Nat
  | [], n => ([], n)
  | p :: ps, n =>
    if n = 1 then ([], n)
    else
      let (e, rest) := divideOut p n
      let (found, rest) := trialDivide ps rest
      (List.replicate e p ++ found, rest)

/-- Takes a number without small prime divisors apart into probable primes. -/
def split (effort : Nat) (m : Nat) (w : Words) : Except Failure (List Nat × Words) :=
  if m ≤ 1 then .ok ([], w)
  else if m < trialBound * trialBound then .ok ([m], w)
  else
    let (prime, w) := Prime.isProbable m w
    if prime then .ok ([m], w)
    else
      let root := natRoot m
      if root < m ∧ root * root = m then
        match split effort root w with
        | .error e => .error e
        | .ok (left, w) =>
          match split effort root w with
          | .error e => .error e
          | .ok (right, w) => .ok (left ++ right, w)
      else
        match Rho.divisor? m effort w with
        | (none, _) => .error (.unfactored (Numeral.ofNat m) effort)
        | (some d, w) =>
          if _h : d < m ∧ m / d < m then
            match split effort d w with
            | .error e => .error e
            | .ok (left, w) =>
              match split effort (m / d) w with
              | .error e => .error e
              | .ok (right, w) => .ok (left ++ right, w)
          else .error (.unfactored (Numeral.ofNat m) effort)
termination_by m
decreasing_by all_goals omega

/-- Collects a sorted list into pairs of a value and the number of times it occurs. -/
def runs : List Nat → List (Nat × Nat)
  | [] => []
  | p :: ps =>
    match runs ps with
    | (q, e) :: rest => if p = q then (q, e + 1) :: rest else (p, 1) :: (q, e) :: rest
    | [] => [(p, 1)]

/-- The prime factorisation of a positive number, in increasing order of the primes. -/
def factor (n : Int) (effort : Nat) (w : Words) : Except Failure (List (Nat × Nat) × Words) :=
  if n ≤ 0 then .error (.broken (.nonPositive n))
  else
    let (small, rest) := trialDivide smallPrimes n.toNat
    match split effort rest w with
    | .error e => .error e
    | .ok (large, w) => .ok (runs ((small ++ large).mergeSort (· ≤ ·)), w)

end CliffordT.Factor

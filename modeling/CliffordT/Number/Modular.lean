import CliffordT.Failure

/-!
Arithmetic modulo a natural number: powers, the splitting of a number into a power of two and an odd part, the
quadratic residue symbol, and square roots by the method of Tonelli and Shanks.
-/

namespace CliffordT.Modular

/-- The power `b ^ e` modulo `n`, by squaring. -/
def pow (n b e : Nat) : Nat :=
  if e = 0 then 1 % n
  else
    let half := pow n (b * b % n) (e / 2)
    if e % 2 = 1 then b * half % n else half
termination_by e
decreasing_by omega

/-- The exponent of two in a positive number, and its odd part; zero counts as odd. -/
def splitTwos (m : Nat) : Nat × Nat :=
  if m = 0 ∨ m % 2 = 1 then (0, m)
  else
    let (s, d) := splitTwos (m / 2)
    (s + 1, d)
termination_by m
decreasing_by omega

/-- The symbol `(a/p)` by the criterion of Euler, for a positive modulus and `a` already reduced. -/
def residueSymbol (a p : Nat) : Int :=
  if a = 0 then 0 else if pow p a ((p - 1) / 2) = 1 then 1 else -1

/-- The symbol `(a/p)`. It is undefined for modulus zero, and for a negative modulus it is defined only at
multiples of the modulus. -/
def legendre (a p : Int) : Except Failure Int :=
  if p = 0 then .error .undefined
  else if a.fmod p = 0 then .ok 0
  else if p < 0 then .error .undefined
  else .ok (residueSymbol (a.fmod p).toNat p.toNat)

/-- The least number from `z` on with residue symbol `-1`, among the next `limit` numbers. -/
def nonResidueFrom (p z : Nat) : Nat → Option Nat
  | 0 => none
  | limit + 1 => if residueSymbol (z % p) p = -1 then some z else nonResidueFrom p (z + 1) limit

/-- The number of squarings that take `t` to one, if fewer than `m` do. -/
def squaringsToOne (p : Nat) : (m : Nat) → Nat → Option (Fin m)
  | 0, _ => none
  | m + 1, t => if t = 1 then some 0 else (squaringsToOne p m (t * t % p)).map Fin.succ

/-- The value `b ^ (2 ^ k)` modulo `p`. -/
def squareTimes (p : Nat) (b : Nat) : Nat → Nat
  | 0 => b
  | k + 1 => squareTimes p (b * b % p) k

/-- The descent of Tonelli and Shanks: `r * r = a * t` throughout and the order of `t` is a power of two below
`2 ^ m`, which shrinks until `t` is one. -/
def descend (p m c t r : Nat) : Option Nat :=
  if t = 1 then some r
  else
    match squaringsToOne p m t with
    | none => none
    | some i =>
      let b := squareTimes p c (m - i - 1)
      let c := b * b % p
      descend p i c (t * c % p) (r * b % p)
termination_by m
decreasing_by exact i.isLt

/-- A square root of the reduced residue `a` modulo the positive number `p`. -/
def sqrtReduced (a p : Nat) : Option Nat :=
  if a = 0 then some 0
  else if residueSymbol a p ≠ 1 then none
  else if p % 4 = 3 then some (pow p a ((p + 1) / 4))
  else
    let (s, q) := splitTwos (p - 1)
    match nonResidueFrom p 2 p with
    | none => none
    | some z => descend p s (pow p z q) (pow p a q) (pow p a ((q + 1) / 2))

/-- A square root of `a` modulo `p`, if there is one. Where the residue symbol is undefined, so is the root. -/
def sqrt? (a p : Int) : Except Failure (Option Nat) :=
  if p = 0 then .error .undefined
  else if a.fmod p = 0 then .ok (some 0)
  else if p < 0 then .error .undefined
  else .ok (sqrtReduced (a.fmod p).toNat p.toNat)

/-- The residue of an integer modulo eight. -/
def residueEight (p : Int) : Nat := (p % 8).toNat

end CliffordT.Modular

import CliffordT.Gate.Word
import CliffordT.Ring.Text
import CliffordT.Square

/-!
Single-qubit operators with entries in `𝔻[ω]`, given by their first column and the phase of their determinant.

A unitary matrix with determinant `ωⁿ` and first column `(z, w)` has second column `(-w† ωⁿ, z† ωⁿ)`, so nothing
else needs to be kept. Whether `|z|² + |w|² = 1` is a test and not part of the type.
-/

namespace CliffordT

/-- The matrix with rows `(z, -w† ωⁿ)` and `(w, z† ωⁿ)`, where `n` is the phase. -/
structure QubitOp (E : Type := UInt32) where
  /-- The top left entry. -/
  z : CycloFrac E
  /-- The bottom left entry. -/
  w : CycloFrac E
  /-- The exponent of `ω` in the determinant. -/
  phase : Fin 8
  deriving DecidableEq, Repr

namespace QubitOp

variable {E : Type} [Exponent E]

/-- The residue of an integer modulo eight, as a phase. -/
def phaseOf (n : Int) : Fin 8 := ⟨(n % 8).toNat, by omega⟩

/-- The operator with the given first column and phase, its entries reduced. -/
def make (z w : CycloFrac E) (n : Int) : QubitOp E := ⟨z.reduce, w.reduce, phaseOf n⟩

/-- The identity. -/
def identity : QubitOp E := make 1 0 0

/-- An operator of determinant one whose first column is `(z, w)` or `(z, ωw)`, whichever needs no larger denominator
in the sum of its entries. -/
def ofColumn (z w : CycloFrac E) : QubitOp E :=
  let z := z.reduce
  let w := w.reduce
  if Exponent.load (z + w).reduce.exp < Exponent.load z.exp then make z w 0 else make z (CycloFrac.timesOmegaPow w 1) 0

/-- The product of `T ^ j` with an operator, for any integer `j`. -/
def timesT (u : QubitOp E) (j : Int) : QubitOp E :=
  make u.z (CycloFrac.timesOmegaPow u.w j) (u.phase.val + j)

/-- The product of a gate with an operator. -/
def apply (g : Gate) (u : QubitOp E) : QubitOp E :=
  match g with
  | .H => make (u.z + u.w).overRoot (u.z - u.w).overRoot (u.phase.val + 4)
  | .T => u.timesT 1
  | .S => u.timesT 2
  | .X => make u.w u.z (u.phase.val + 4)
  | .W => make (CycloFrac.timesOmegaPow u.z 1) (CycloFrac.timesOmegaPow u.w 1) (u.phase.val + 2)

/-- The product of a word of gates. -/
def ofWord (word : GateWord) : QubitOp E := word.foldr apply identity

/-- All four entries. -/
def entries (u : QubitOp E) : Square (CycloFrac E) where
  m₀₀ := u.z
  m₀₁ := -CycloFrac.timesOmegaPow (CycloFrac.conj u.w) u.phase.val
  m₁₀ := u.w
  m₁₁ := CycloFrac.timesOmegaPow (CycloFrac.conj u.z) u.phase.val

/-- Whether the first column has length one. -/
def isUnitary (u : QubitOp E) : Bool := (CycloFrac.absSq u.z + CycloFrac.absSq u.w).same 1

/-- The least denominator exponent of `|z|²`. -/
def exponent (u : QubitOp E) : Nat := Exponent.load (CycloFrac.absSq u.z).reduce.exp

/-- Whether two operators have the same first column and the same phase. -/
def same (u v : QubitOp E) : Bool := u.z.same v.z && u.w.same v.w && u.phase = v.phase

/-- The text of an operator: its first column and its determinant. -/
def text (u : QubitOp E) : String :=
  "[[" ++ toString u.z ++ ", .], [" ++ toString u.w ++ ", .]] det ω^" ++ toString u.phase.val

instance : ToString (QubitOp E) := ⟨text⟩

end QubitOp

end CliffordT

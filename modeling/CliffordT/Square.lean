/-!
Two-by-two matrices over any type with a product and a sum.
-/

namespace CliffordT

/-- The matrix with rows `(m₀₀, m₀₁)` and `(m₁₀, m₁₁)`. -/
structure Square (K : Type) where
  /-- Top left. -/
  m₀₀ : K
  /-- Top right. -/
  m₀₁ : K
  /-- Bottom left. -/
  m₁₀ : K
  /-- Bottom right. -/
  m₁₁ : K
  deriving DecidableEq, Repr

namespace Square

/-- The matrix with a function applied to every entry. -/
def map {K L : Type} (f : K → L) (m : Square K) : Square L := ⟨f m.m₀₀, f m.m₀₁, f m.m₁₀, f m.m₁₁⟩

/-- The matrix of a function of corresponding entries. -/
def zipWith {K L M : Type} (f : K → L → M) (m : Square K) (n : Square L) : Square M :=
  ⟨f m.m₀₀ n.m₀₀, f m.m₀₁ n.m₀₁, f m.m₁₀ n.m₁₀, f m.m₁₁ n.m₁₁⟩

/-- The entries, row by row. -/
def toList {K : Type} (m : Square K) : List K := [m.m₀₀, m.m₀₁, m.m₁₀, m.m₁₁]

/-- The matrix product. -/
instance {K : Type} [Add K] [Mul K] : Mul (Square K) := ⟨fun m n =>
  ⟨m.m₀₀ * n.m₀₀ + m.m₀₁ * n.m₁₀, m.m₀₀ * n.m₀₁ + m.m₀₁ * n.m₁₁,
   m.m₁₀ * n.m₀₀ + m.m₁₁ * n.m₁₀, m.m₁₀ * n.m₀₁ + m.m₁₁ * n.m₁₁⟩⟩

end Square

end CliffordT

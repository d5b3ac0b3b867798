import CliffordT.Proofs.Literal.Reader
import CliffordT.Proofs.Text.Numeral
import CliffordT.Proofs.Working.Double

/-!
The text of a literal reads back as the literal.

The text is one of the written forms without blanks, points or exponents, so that nothing is lost in words. A literal made from a
floating-point number stands for exactly that number.
-/

namespace CliffordT.Literal

/-- What the text of a literal says. -/
def written (l : Literal) : WrittenLiteral := ⟨decide (l.num < 0), l.timesPi, .ofNat l.num.natAbs, .ofNat l.den⟩

theorem isDecimal_digits (n : ℕ) : IsDecimal (Numeral.digits n) (.ofNat n) := by
  have hmantissa := IsMantissa.whole (Numeral.digits_ne_nil n) (Numeral.isDigit_digits n)
  rw [Numeral.ofDigitChars_digits] at hmantissa
  exact .plain hmantissa

theorem isMultiple_digits (n : ℕ) (timesPi : Bool) :
    IsMultiple (Numeral.digits n ++ if timesPi then "*pi".toList else []) (.ofNat n) timesPi := by
  cases timesPi with
  | false =>
    rw [if_neg (by decide), List.append_nil]
    exact .plain (isDecimal_digits n)
  | true =>
    have hmultiple := IsMultiple.timesPi (isDecimal_digits n) (b := []) (by decide)
    rwa [List.append_nil] at hmultiple

theorem isSigned_text (l : Literal) : IsSigned ((Numeral.ofInt l.num).toList ++ if l.timesPi then "*pi".toList else [])
    (decide (l.num < 0)) (.ofNat l.num.natAbs) l.timesPi := by
  have hmultiple := isMultiple_digits l.num.natAbs l.timesPi
  rw [← Numeral.toList_ofNat] at hmultiple
  rw [Numeral.ofInt]
  split
  · next hneg =>
    rw [decide_eq_true hneg, String.toList_append]
    exact .minus (b := []) hmultiple (by decide)
  · next hnonneg =>
    rw [decide_eq_false hnonneg]
    exact .plain hmultiple

theorem toList_text (l : Literal) : l.text.toList =
    (Numeral.ofInt l.num).toList ++ (if l.timesPi then "*pi".toList else []) ++
      if l.den = 1 then [] else '/' :: Numeral.digits l.den := by
  have hfactor : (if l.timesPi then "*pi" else "").toList = if l.timesPi then "*pi".toList else [] := apply_ite ..
  have hquotient : (if l.den = 1 then "" else "/" ++ Numeral.ofNat l.den).toList =
      if l.den = 1 then [] else '/' :: Numeral.digits l.den := by
    rw [apply_ite String.toList, String.toList_append, Numeral.toList_ofNat]
    rfl
  rw [text, String.toList_append, String.toList_append, hfactor, hquotient]

theorem isLiteral_text (l : Literal) : IsLiteral l.text.toList l.written := by
  rw [toList_text]
  by_cases hden : l.den = 1
  · rw [if_pos hden, List.append_nil, written, hden]
    exact .whole l.isSigned_text (.refl _)
  · rw [if_neg hden]
    exact .quotient l.isSigned_text (.refl _) (isDecimal_digits l.den) (.refl _)

/-- Without a point and an exponent, the fraction that is read is the one that was written. -/
theorem read_written (l : Literal) (h : 0 < l.written.den.read.num) : l.written.read h = l := by
  have hnum (n : ℕ) : (⟨n, 0⟩ : DecimalNumber).num = n := Nat.mul_one n
  have hden (n : ℕ) : (⟨n, 0⟩ : DecimalNumber).den = 1 := rfl
  rcases l with ⟨num, den, timesPi, hpos⟩
  simp only [WrittenLiteral.read, written, ofParts, WrittenDecimal.read_ofNat, hnum, hden, mul_one, one_mul,
    Literal.mk.injEq, and_true, decide_eq_true_eq]
  split <;> omega

theorem readable_written (l : Literal) : l.written.Readable :=
  ⟨WrittenDecimal.readable_ofNat _, WrittenDecimal.readable_ofNat _⟩

theorem exists_ofDouble (bits : UInt64) (h : (Double.fields bits).IsFinite) :
    ∃ l, ofDouble bits = .ok l ∧ l.timesPi = false ∧ (l.num : ℚ) / l.den = (Double.fields bits).value := by
  have hscale (m e : ℤ) : ((m * twoPow e.toNat : ℤ) : ℚ) / twoPow (-e).toNat = m * 2 ^ e := by
    have hpow (n : ℕ) : ((twoPow n : ℕ) : ℚ) = 2 ^ n := Nat.cast_pow 2 n
    rw [Int.cast_mul, Int.cast_natCast, hpow, hpow, mul_div_assoc, ← zpow_natCast, ← zpow_natCast, ← zpow_sub₀ two_ne_zero]
    congr 2
    omega
  rw [ofDouble, if_pos ((Double.isFinite_iff bits).2 h), ← Double.value_eq]
  exact ⟨_, rfl, rfl, hscale _ _⟩

theorem ofText_text (l : Literal) : ofText l.text = .ok l := by
  have hpos : 0 < l.written.den.read.num := l.written.den.read.num_pos_iff.2 l.den_pos.ne'
  rw [ofText_of_isLiteral l.isLiteral_text l.readable_written, dif_pos hpos, l.read_written hpos]

/-- Nothing is lost in the text, whether the fraction is in lowest terms or not, and a finite floating-point number is taken
exactly. -/
theorem text_loses_nothing :
    (∀ l : Literal, ofText l.text = .ok l) ∧
    ∀ bits, (Double.fields bits).IsFinite → ∃ l, ofDouble bits = .ok l ∧ ofText l.text = .ok l ∧ l.timesPi = false ∧
      (l.num : ℚ) / l.den = (Double.fields bits).value := by
  refine ⟨ofText_text, fun bits h => ?_⟩
  obtain ⟨l, hl, hvalue⟩ := exists_ofDouble bits h
  exact ⟨l, hl, ofText_text l, hvalue⟩

/-- Zero times `π` over a denominator other than one, and the largest of the negative subnormal numbers. -/
theorem text_loses_nothing_subnormal :
    ofText (⟨0, 4, true, by decide⟩ : Literal).text = .ok ⟨0, 4, true, by decide⟩ ∧
    (Double.fields 0x8000000000000001).IsFinite ∧
    ∃ l, ofDouble 0x8000000000000001 = .ok l ∧ ofText l.text = .ok l ∧ l.timesPi = false ∧
      (l.num : ℚ) / l.den = -(1 / 2 ^ 52 * 2 ^ (-1022 : ℤ)) := by
  have hfinite : (Double.fields 0x8000000000000001).IsFinite := by decide
  have hfields : Double.fields 0x8000000000000001 = ⟨true, 0, 1⟩ := rfl
  have hvalue : (Double.fields 0x8000000000000001).value = -(1 / 2 ^ 52 * 2 ^ (-1022 : ℤ)) := by
    have hfraction : (1 : BitVec 52).toNat = 1 := rfl
    rw [hfields, Double.Fields.value, Double.Fields.magnitude, if_pos rfl, if_pos rfl]
    simp only [hfraction, Nat.cast_one]
  have hexact := text_loses_nothing.2 _ hfinite
  rw [hvalue] at hexact
  exact ⟨text_loses_nothing.1 _, hfinite, hexact⟩

end CliffordT.Literal

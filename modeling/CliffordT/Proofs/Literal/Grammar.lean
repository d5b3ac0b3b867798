import CliffordT.Literal.Reader
import CliffordT.Proofs.Text.Blank
import Mathlib.Data.Rat.Defs
import Mathlib.Tactic.NormNum

/-!
The written forms of real literals, and what they stand for.

Each kind of text is a relation between characters and what they say: an integer, the digits of a decimal, a decimal, a
decimal that may be multiplied by `π`, the same with a sign, and the whole literal. Blanks may stand behind a sign, between a
decimal and `π`, around the slash, and at the ends.
-/

namespace CliffordT.Literal

/-- What a decimal says. -/
structure WrittenDecimal where
  /-- All digits as one number. -/
  digits : ℕ
  /-- How many of the digits stand behind the point. -/
  places : ℕ
  /-- The exponent of ten. -/
  exponent : ℤ

/-- What a literal says. -/
structure WrittenLiteral where
  /-- Whether it has a minus sign. -/
  negative : Bool
  /-- Whether `π` occurs. -/
  timesPi : Bool
  /-- The decimal before the slash, one if there is none. -/
  num : WrittenDecimal
  /-- The decimal behind the slash, one if there is none. -/
  den : WrittenDecimal

namespace WrittenDecimal

/-- A number without point and exponent. -/
def ofNat (n : ℕ) : WrittenDecimal := ⟨n, 0, 0⟩

/-- The number that a decimal stands for. -/
def value (d : WrittenDecimal) : ℚ := d.digits * 10 ^ (d.exponent - d.places)

/-- The exponent does not exceed the bound. -/
def Bounded (d : WrittenDecimal) : Prop := |d.exponent| ≤ maxExponent

instance : DecidablePred Bounded := fun d => inferInstanceAs (Decidable (|d.exponent| ≤ maxExponent))

/-- The exponent does not exceed the bound, or it is the least word of 64 bits. -/
def Readable (d : WrittenDecimal) : Prop := |d.exponent| ≤ maxExponent ∨ d.exponent = -2 ^ 63

instance : DecidablePred Readable := fun d =>
  inferInstanceAs (Decidable (|d.exponent| ≤ maxExponent ∨ d.exponent = -2 ^ 63))

end WrittenDecimal

namespace WrittenLiteral

/-- The number that a literal stands for, apart from a factor `π`. -/
def value (t : WrittenLiteral) : ℚ := (if t.negative then -1 else 1) * t.num.value / t.den.value

/-- No exponent exceeds the bound. -/
def Bounded (t : WrittenLiteral) : Prop := t.num.Bounded ∧ t.den.Bounded

instance : DecidablePred Bounded := fun t => inferInstanceAs (Decidable (t.num.Bounded ∧ t.den.Bounded))

/-- All exponents that exceed the bound are the least word of 64 bits. -/
def Readable (t : WrittenLiteral) : Prop := t.num.Readable ∧ t.den.Readable

instance : DecidablePred Readable := fun t => inferInstanceAs (Decidable (t.num.Readable ∧ t.den.Readable))

end WrittenLiteral

/-- Decimal digits and nothing else, possibly none. -/
def AllDigits (cs : List Char) : Prop := ∀ c ∈ cs, c.isDigit = true

instance : DecidablePred AllDigits := List.decidableBAll _

/-- The text of an integer: an optional sign and at least one digit. -/
inductive IsInteger : List Char → ℤ → Prop
  | plain {ds : List Char} (hne : ds ≠ []) (hds : AllDigits ds) : IsInteger ds (Nat.ofDigitChars 10 ds 0)
  | plus {ds : List Char} (hne : ds ≠ []) (hds : AllDigits ds) : IsInteger ('+' :: ds) (Nat.ofDigitChars 10 ds 0)
  | minus {ds : List Char} (hne : ds ≠ []) (hds : AllDigits ds) : IsInteger ('-' :: ds) (-(Nat.ofDigitChars 10 ds 0 : ℤ))

/-- At least one digit and at most one point, with all digits as one number and the number of digits behind the point. -/
inductive IsMantissa : List Char → ℕ → ℕ → Prop
  | whole {ds : List Char} (hne : ds ≠ []) (hds : AllDigits ds) : IsMantissa ds (Nat.ofDigitChars 10 ds 0) 0
  | point {ds fs : List Char} (hne : ds ++ fs ≠ []) (hds : AllDigits (ds ++ fs)) :
    IsMantissa (ds ++ '.' :: fs) (Nat.ofDigitChars 10 (ds ++ fs) 0) fs.length

/-- The text of a decimal: a mantissa with an optional exponent. -/
inductive IsDecimal : List Char → WrittenDecimal → Prop
  | plain {cs : List Char} {n k : ℕ} (h : IsMantissa cs n k) : IsDecimal cs ⟨n, k, 0⟩
  | scaled {cs es : List Char} {n k : ℕ} {mark : Char} {e : ℤ} (h : IsMantissa cs n k) (hmark : mark = 'e' ∨ mark = 'E')
    (he : IsInteger es e) : IsDecimal (cs ++ mark :: es) ⟨n, k, e⟩

/-- The text of a decimal that may be multiplied by `π`, or of `π` alone in letters of any case. -/
inductive IsMultiple : List Char → WrittenDecimal → Bool → Prop
  | pi {p i : Char} (hp : p = 'p' ∨ p = 'P') (hi : i = 'i' ∨ i = 'I') : IsMultiple [p, i] (.ofNat 1) true
  | timesPi {cs b : List Char} {d : WrittenDecimal} (h : IsDecimal cs d) (hb : AllBlank b) :
    IsMultiple (cs ++ b ++ ['*', 'p', 'i']) d true
  | piTimes {cs b : List Char} {d : WrittenDecimal} (h : IsDecimal cs d) (hb : AllBlank b) :
    IsMultiple (['p', 'i', '*'] ++ b ++ cs) d true
  | plain {cs : List Char} {d : WrittenDecimal} (h : IsDecimal cs d) : IsMultiple cs d false

/-- The same with an optional sign; the first mark tells whether it is a minus sign. -/
inductive IsSigned : List Char → Bool → WrittenDecimal → Bool → Prop
  | plain {cs : List Char} {d : WrittenDecimal} {timesPi : Bool} (h : IsMultiple cs d timesPi) : IsSigned cs false d timesPi
  | plus {cs b : List Char} {d : WrittenDecimal} {timesPi : Bool} (h : IsMultiple cs d timesPi) (hb : AllBlank b) :
    IsSigned ('+' :: (b ++ cs)) false d timesPi
  | minus {cs b : List Char} {d : WrittenDecimal} {timesPi : Bool} (h : IsMultiple cs d timesPi) (hb : AllBlank b) :
    IsSigned ('-' :: (b ++ cs)) true d timesPi

/-- The text of a literal, with an optional second decimal behind a slash. -/
inductive IsLiteral : List Char → WrittenLiteral → Prop
  | whole {cs text : List Char} {negative timesPi : Bool} {n : WrittenDecimal} (h : IsSigned cs negative n timesPi)
    (htext : Surrounded cs text) : IsLiteral text ⟨negative, timesPi, n, .ofNat 1⟩
  | quotient {cs ds before behind : List Char} {negative timesPi : Bool} {n d : WrittenDecimal}
    (h : IsSigned cs negative n timesPi) (hbefore : Surrounded cs before) (hd : IsDecimal ds d)
    (hbehind : Surrounded ds behind) : IsLiteral (before ++ '/' :: behind) ⟨negative, timesPi, n, d⟩

/-! ### Characters -/

/-- The characters of which decimals are made. -/
def IsDecimalChar (c : Char) : Prop := c.isDigit = true ∨ c ∈ ['.', 'e', 'E', '+', '-']

theorem IsDecimalChar.not_isBlank {c : Char} (h : IsDecimalChar c) : isBlank c = false := by
  rcases h with h | h
  · simp only [Char.isDigit, Bool.and_eq_true, decide_eq_true_eq, ge_iff_le, UInt32.le_iff_toNat_le] at h
    have hlo : 48 ≤ c.toNat := h.1
    have hhi : c.toNat ≤ 57 := h.2
    simp only [isBlank, Bool.or_eq_false_iff, Bool.and_eq_false_iff, decide_eq_false_iff_not]
    omega
  · simp only [List.mem_cons, List.not_mem_nil, or_false] at h
    rcases h with rfl | rfl | rfl | rfl | rfl <;> decide

theorem IsDecimalChar.ne {c d : Char} (h : IsDecimalChar c) (hd : d ∈ ['/', '*', 'p', 'P', 'i']) : c ≠ d := by
  rintro rfl
  simp only [List.mem_cons, List.not_mem_nil, or_false] at hd
  rcases hd with rfl | rfl | rfl | rfl | rfl <;> revert h <;> unfold IsDecimalChar <;> decide

theorem IsInteger.chars {cs : List Char} {n : ℤ} (h : IsInteger cs n) : ∀ c ∈ cs, IsDecimalChar c := by
  cases h with
  | plain _ hds => exact fun c hc => .inl (hds c hc)
  | plus _ hds | minus _ hds =>
    intro c hc
    rcases List.mem_cons.1 hc with rfl | hc
    · exact .inr (by decide)
    · exact .inl (hds c hc)

theorem IsMantissa.chars {cs : List Char} {n k : ℕ} (h : IsMantissa cs n k) : ∀ c ∈ cs, c.isDigit = true ∨ c = '.' := by
  cases h with
  | whole _ hds => exact fun c hc => .inl (hds c hc)
  | point _ hds =>
    intro c hc
    rcases List.mem_append.1 hc with hc | hc
    · exact .inl (hds c (List.mem_append_left _ hc))
    · rcases List.mem_cons.1 hc with rfl | hc
      · exact .inr rfl
      · exact .inl (hds c (List.mem_append_right _ hc))

theorem IsMantissa.ne_nil {cs : List Char} {n k : ℕ} (h : IsMantissa cs n k) : cs ≠ [] := by
  cases h with
  | whole hne _ => exact hne
  | point _ _ => simp

theorem IsMantissa.places_le {cs : List Char} {n k : ℕ} (h : IsMantissa cs n k) : k ≤ cs.length := by
  cases h with
  | whole _ _ => exact Nat.zero_le _
  | point _ _ => simp only [List.length_append, List.length_cons]; omega

namespace IsDecimal

variable {cs : List Char} {d : WrittenDecimal}

theorem chars (h : IsDecimal cs d) : ∀ c ∈ cs, IsDecimalChar c := by
  have hmantissa {cs : List Char} {n k : ℕ} (h : IsMantissa cs n k) : ∀ c ∈ cs, IsDecimalChar c := fun c hc =>
    (h.chars c hc).imp id fun h => by simp [h]
  cases h with
  | plain h => exact hmantissa h
  | scaled h hmark he =>
    intro c hc
    rcases List.mem_append.1 hc with hc | hc
    · exact hmantissa h c hc
    · rcases List.mem_cons.1 hc with rfl | hc
      · exact .inr (by rcases hmark with rfl | rfl <;> decide)
      · exact he.chars c hc

/-- A decimal starts with a digit or with the point. -/
theorem head (h : IsDecimal cs d) : ∃ c rest, cs = c :: rest ∧ (c.isDigit = true ∨ c = '.') := by
  have hmantissa {cs : List Char} {n k : ℕ} (h : IsMantissa cs n k) :
      ∃ c rest, cs = c :: rest ∧ (c.isDigit = true ∨ c = '.') := by
    obtain ⟨c, rest, rfl⟩ := List.exists_cons_of_ne_nil h.ne_nil
    exact ⟨c, rest, rfl, h.chars c (by simp)⟩
  cases h with
  | plain h => exact hmantissa h
  | scaled h _ _ =>
    obtain ⟨c, rest, rfl, hc⟩ := hmantissa h
    exact ⟨c, _, List.cons_append, hc⟩

theorem places_le (h : IsDecimal cs d) : d.places ≤ cs.length := by
  cases h with
  | plain h => exact h.places_le
  | scaled h _ _ => exact h.places_le.trans (by simp)

theorem noBlank (h : IsDecimal cs d) : NoBlank cs := fun c hc => (h.chars c hc).not_isBlank

theorem trimmed (h : IsDecimal cs d) : Trimmed cs := h.noBlank.trimmed

end IsDecimal

theorem IsDecimal.not_mem {cs : List Char} {d : WrittenDecimal} (h : IsDecimal cs d) {c : Char}
    (hc : c ∈ ['/', '*', 'p', 'P', 'i']) : c ∉ cs := fun hmem => (h.chars c hmem).ne hc rfl

theorem IsDecimal.ne_nil {cs : List Char} {d : WrittenDecimal} (h : IsDecimal cs d) : cs ≠ [] := by
  obtain ⟨c, rest, rfl, -⟩ := h.head
  simp

namespace IsMultiple

variable {cs : List Char} {d : WrittenDecimal} {timesPi : Bool}

theorem ne_nil (h : IsMultiple cs d timesPi) : cs ≠ [] := by
  cases h with
  | pi _ _ | timesPi _ _ | piTimes _ _ => simp
  | plain h => exact h.ne_nil

theorem places_le (h : IsMultiple cs d timesPi) : d.places ≤ cs.length := by
  cases h with
  | pi _ _ => exact Nat.zero_le _
  | timesPi h _ | piTimes h _ =>
    have := h.places_le
    simp only [List.length_append]
    omega
  | plain h => exact h.places_le

theorem trimmed (h : IsMultiple cs d timesPi) : Trimmed cs := by
  cases h with
  | pi hp hi =>
    refine NoBlank.trimmed ?_
    rcases hp with rfl | rfl <;> rcases hi with rfl | rfl <;> decide
  | timesPi h hb =>
    rw [List.append_assoc]
    exact h.trimmed.append h.ne_nil (NoBlank.trimmed (by decide)) (by simp) _
  | piTimes h hb =>
    rw [List.append_assoc]
    exact (NoBlank.trimmed (by decide)).append (by simp) h.trimmed h.ne_nil _
  | plain h => exact h.trimmed

theorem slash_not_mem (h : IsMultiple cs d timesPi) : '/' ∉ cs := by
  cases h with
  | pi hp hi => rcases hp with rfl | rfl <;> rcases hi with rfl | rfl <;> decide
  | timesPi h hb | piTimes h hb =>
    simp only [List.mem_append, not_or]
    simp [h.not_mem, hb.not_mem (c := '/') (by decide)]
  | plain h => exact h.not_mem (by simp)

/-- There is no sign in front. -/
theorem head (h : IsMultiple cs d timesPi) : ∃ c rest, cs = c :: rest ∧ c ≠ '-' ∧ c ≠ '+' := by
  have hdecimal {cs : List Char} {d : WrittenDecimal} (h : IsDecimal cs d) : ∃ c rest, cs = c :: rest ∧ c ≠ '-' ∧ c ≠ '+' := by
    obtain ⟨c, rest, rfl, hc⟩ := h.head
    refine ⟨c, rest, rfl, ?_, ?_⟩ <;> rintro rfl <;> revert hc <;> decide
  cases h with
  | pi hp _ => exact ⟨_, _, rfl, by rcases hp with rfl | rfl <;> decide⟩
  | timesPi h _ =>
    obtain ⟨c, rest, rfl, hc⟩ := hdecimal h
    exact ⟨c, _, rfl, hc⟩
  | piTimes _ _ => exact ⟨'p', _, rfl, by decide⟩
  | plain h => exact hdecimal h

end IsMultiple

namespace IsSigned

variable {cs : List Char} {d : WrittenDecimal} {negative timesPi : Bool}

theorem ne_nil (h : IsSigned cs negative d timesPi) : cs ≠ [] := by
  cases h with
  | plain h => exact h.ne_nil
  | plus _ _ | minus _ _ => simp

theorem places_le (h : IsSigned cs negative d timesPi) : d.places ≤ cs.length := by
  cases h with
  | plain h => exact h.places_le
  | plus h _ | minus h _ =>
    have := h.places_le
    simp only [List.length_cons, List.length_append]
    omega

theorem trimmed (h : IsSigned cs negative d timesPi) : Trimmed cs := by
  cases h with
  | plain h => exact h.trimmed
  | plus h _ => exact (by decide : NoBlank ['+']).trimmed.append (by simp) h.trimmed h.ne_nil _
  | minus h _ => exact (by decide : NoBlank ['-']).trimmed.append (by simp) h.trimmed h.ne_nil _

theorem slash_not_mem (h : IsSigned cs negative d timesPi) : '/' ∉ cs := by
  cases h with
  | plain h => exact h.slash_not_mem
  | plus h hb | minus h hb => simp [h.slash_not_mem, hb.not_mem (c := '/') (by decide)]

end IsSigned

/-- A text is at least as long as the digits behind a point in it. -/
theorem IsLiteral.places_le {cs : List Char} {t : WrittenLiteral} (h : IsLiteral cs t) :
    t.num.places ≤ cs.length ∧ t.den.places ≤ cs.length := by
  cases h with
  | whole h htext => exact ⟨h.places_le.trans htext.length_le, Nat.zero_le _⟩
  | quotient h hbefore hd hbehind =>
    have hnum := h.places_le.trans hbefore.length_le
    have hden := hd.places_le.trans hbehind.length_le
    simp only [List.length_append, List.length_cons]
    omega

end CliffordT.Literal

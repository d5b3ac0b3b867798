import CliffordT.Proofs.Literal.Grammar
import Mathlib.Tactic.FieldSimp
import Mathlib.Tactic.Ring

/-!
Reading a literal is exact.

Every reader is compared with the texts of its kind: it accepts those whose exponents are within the bound, and also those
with the least word of 64 bits as an exponent, because the bound is on the absolute value of words. Within the bound, and as
long as the exponent of ten stays below `2 ^ 32` when the point is moved behind the last digit, the fraction that is read is the
number that is written.
-/

namespace CliffordT.Literal

/-! ### Splitting -/

section Splitting

variable {stop : Char → Bool} {cs before behind : List Char}

theorem splitFirst_of_forall (h : ∀ c ∈ cs, stop c = false) : splitFirst stop cs = (cs, none) := by
  induction cs with
  | nil => rfl
  | cons c cs ih =>
    rw [List.forall_mem_cons] at h
    rw [splitFirst, h.1, ih h.2]
    rfl

theorem splitFirst_append {c : Char} (h : ∀ x ∈ before, stop x = false) (hc : stop c = true) :
    splitFirst stop (before ++ c :: behind) = (before, some behind) := by
  induction before with
  | nil => rw [List.nil_append, splitFirst, if_pos hc]
  | cons x before ih =>
    rw [List.forall_mem_cons] at h
    rw [List.cons_append, splitFirst, h.1, ih h.2]
    rfl

theorem splitFirst_of_not_mem {c : Char} (h : c ∉ cs) : splitFirst (· = c) cs = (cs, none) :=
  splitFirst_of_forall fun _ hx => decide_eq_false (ne_of_mem_of_not_mem hx h)

theorem splitFirst_append_of_not_mem {c : Char} (h : c ∉ before) :
    splitFirst (· = c) (before ++ c :: behind) = (before, some behind) :=
  splitFirst_append (fun _ hx => decide_eq_false (ne_of_mem_of_not_mem hx h)) (decide_eq_true rfl)

/-- What is split off stood in front of a stop, or is everything. -/
theorem splitFirst_cases (stop : Char → Bool) (cs : List Char) : splitFirst stop cs = (cs, none) ∨
    ∃ before c behind, splitFirst stop cs = (before, some behind) ∧ stop c = true ∧ cs = before ++ c :: behind := by
  induction cs with
  | nil => exact .inl rfl
  | cons x cs ih =>
    rw [splitFirst]
    split
    · next h => exact .inr ⟨[], x, cs, rfl, h, rfl⟩
    · rcases ih with h | ⟨before, c, behind, h, hc, rfl⟩
      · exact .inl (by rw [h])
      · exact .inr ⟨x :: before, c, behind, by rw [h], hc, rfl⟩

end Splitting

/-! ### Integers -/

theorem digitsValue_eq (cs : List Char) : digitsValue cs = Nat.ofDigitChars 10 cs 0 := rfl

/-- The test that both readers of digits make. -/
theorem rejects_iff (ds : List Char) : (ds.isEmpty || !ds.all Char.isDigit) = true ↔ ¬(ds ≠ [] ∧ AllDigits ds) := by
  simp only [Bool.or_eq_true, List.isEmpty_iff, Bool.not_eq_true', List.all_eq_false, AllDigits]
  grind

theorem takeIntegerSign_of_allDigits {cs : List Char} (h : AllDigits cs) : takeIntegerSign cs = (false, cs) := by
  rw [takeIntegerSign.eq_def]
  split
  · exact absurd (h '-' (by simp)) (by decide)
  · exact absurd (h '+' (by simp)) (by decide)
  · rfl

/-- An integer is a sign and digits. -/
theorem isInteger_iff {cs : List Char} {n : ℤ} : IsInteger cs n ↔ ∃ negative ds, takeIntegerSign cs = (negative, ds) ∧ ds ≠ [] ∧
    AllDigits ds ∧ n = if negative then -(Nat.ofDigitChars 10 ds 0 : ℤ) else Nat.ofDigitChars 10 ds 0 := by
  constructor
  · intro h
    cases h with
    | plain hne hds => exact ⟨false, _, takeIntegerSign_of_allDigits hds, hne, hds, rfl⟩
    | plus hne hds => exact ⟨false, _, rfl, hne, hds, rfl⟩
    | minus hne hds => exact ⟨true, _, rfl, hne, hds, rfl⟩
  · rintro ⟨negative, ds, hsign, hne, hds, rfl⟩
    rw [takeIntegerSign.eq_def] at hsign
    split at hsign <;> cases hsign
    · exact .minus hne hds
    · exact .plus hne hds
    · exact .plain hne hds

theorem wordOf?_eq_some_iff {n : ℤ} {w : Int64} : wordOf? n = some w ↔ w.toInt = n := by
  have hmin : Int64.minValue.toInt = -2 ^ 63 := rfl
  have hmax : Int64.maxValue.toInt = 2 ^ 63 - 1 := rfl
  rw [wordOf?]
  constructor
  · intro h
    split at h
    · cases h
      exact Int64.toInt_ofInt_of_le (by omega) (by omega)
    · cases h
  · rintro rfl
    rw [if_pos ⟨Int64.minValue_le_toInt w, Int64.toInt_le w⟩, Int64.ofInt_toInt]

theorem readWord?_eq_some_iff {cs : List Char} {w : Int64} : readWord? cs = some w ↔ IsInteger cs w.toInt := by
  rw [isInteger_iff, readWord?]
  rcases takeIntegerSign cs with ⟨negative, ds⟩
  simp only [Prod.mk.injEq, digitsValue_eq]
  split
  · next h =>
    rw [rejects_iff] at h
    simp only [reduceCtorEq, false_iff]
    rintro ⟨_, _, ⟨rfl, rfl⟩, hne, hds, -⟩
    exact h ⟨hne, hds⟩
  · next h =>
    rw [rejects_iff, not_not] at h
    rw [wordOf?_eq_some_iff]
    constructor
    · intro hw
      exact ⟨negative, ds, ⟨rfl, rfl⟩, h.1, h.2, hw⟩
    · rintro ⟨_, _, ⟨rfl, rfl⟩, -, -, hw⟩
      exact hw

/-- The absolute value of the least word is itself. -/
theorem toInt_abs (w : Int64) : w.abs.toInt = if w.toInt = -2 ^ 63 then -2 ^ 63 else |w.toInt| := by
  have hleast : w.toBitVec = BitVec.intMin 64 ↔ w.toInt = -2 ^ 63 := by
    rw [← BitVec.toInt_inj]
    rfl
  change w.toBitVec.abs.toInt = _
  rw [BitVec.toInt_abs_eq_natAbs, Int64.toInt_toBitVec, Int.natCast_natAbs]
  exact if_congr hleast rfl rfl

theorem abs_le_maxExponent_iff (w : Int64) :
    w.abs ≤ Int64.ofNat maxExponent ↔ |w.toInt| ≤ maxExponent ∨ w.toInt = -2 ^ 63 := by
  have hbound : (Int64.ofNat maxExponent).toInt = maxExponent := by decide
  rw [Int64.le_iff_toInt_le, hbound, toInt_abs]
  split
  · next h => simp only [h, or_true, iff_true]; decide
  · next h => rw [or_iff_left h]

theorem readExponent?_eq_some_iff {cs : List Char} {w : Int64} :
    readExponent? cs = some w ↔ IsInteger cs w.toInt ∧ (|w.toInt| ≤ maxExponent ∨ w.toInt = -2 ^ 63) := by
  rw [readExponent?, Option.filter_eq_some_iff, readWord?_eq_some_iff, decide_eq_true_eq, abs_le_maxExponent_iff]

/-! ### Decimals -/

/-- A decimal as it is read: the point is moved behind the last digit, in words. -/
def WrittenDecimal.read (d : WrittenDecimal) : DecimalNumber :=
  ⟨d.digits, Int64.ofInt d.exponent - Int64.ofNat d.places⟩

theorem WrittenDecimal.read_ofNat (n : ℕ) : (ofNat n).read = ⟨n, 0⟩ :=
  congrArg (DecimalNumber.mk n) (by decide : Int64.ofInt 0 - Int64.ofNat 0 = 0)

theorem WrittenDecimal.readable_ofNat (n : ℕ) : (ofNat n).Readable := .inl (by decide : |(0 : ℤ)| ≤ maxExponent)

theorem AllDigits.point_not_mem {cs : List Char} (h : AllDigits cs) : '.' ∉ cs := fun hmem => absurd (h '.' hmem) (by decide)

/-- A mantissa is digits with at most one point in front, between or behind them. -/
theorem isMantissa_iff {cs : List Char} {n k : ℕ} : IsMantissa cs n k ↔ ∃ whole behind,
    splitFirst (· = '.') cs = (whole, behind) ∧ whole ++ behind.getD [] ≠ [] ∧ AllDigits (whole ++ behind.getD []) ∧
      n = Nat.ofDigitChars 10 (whole ++ behind.getD []) 0 ∧ k = (behind.getD []).length := by
  constructor
  · intro h
    cases h with
    | whole hne hds =>
      refine ⟨_, _, splitFirst_of_not_mem hds.point_not_mem, ?_⟩
      simp [hne, hds]
    | point hne hds =>
      exact ⟨_, _, splitFirst_append_of_not_mem fun hmem => hds.point_not_mem (List.mem_append_left _ hmem), hne, hds, rfl, rfl⟩
  · rintro ⟨whole, behind, hsplit, hne, hds, rfl, rfl⟩
    rcases splitFirst_cases (· = '.') cs with h | ⟨before, c, behind', h, hc, rfl⟩ <;> rw [hsplit] at h <;> cases h
    · simp only [Option.getD_none, List.append_nil] at hne hds ⊢
      exact .whole hne hds
    · obtain rfl := of_decide_eq_true hc
      exact .point hne hds

theorem readMantissa?_eq_some_iff {cs : List Char} {e : Int64} {d : DecimalNumber} :
    readMantissa? cs e = some d ↔ ∃ n k, IsMantissa cs n k ∧ d = ⟨n, e - Int64.ofNat k⟩ := by
  simp only [isMantissa_iff]
  rw [readMantissa?]
  rcases splitFirst (· = '.') cs with ⟨whole, behind⟩
  simp only [Prod.mk.injEq]
  split
  · next h =>
    rw [rejects_iff] at h
    simp only [reduceCtorEq, false_iff]
    rintro ⟨_, _, ⟨_, _, ⟨rfl, rfl⟩, hne, hds, -⟩, -⟩
    exact h ⟨hne, hds⟩
  · next h =>
    rw [rejects_iff, not_not] at h
    simp only [Option.some.injEq, digitsValue_eq]
    constructor
    · rintro rfl
      exact ⟨_, _, ⟨whole, behind, ⟨rfl, rfl⟩, h.1, h.2, rfl, rfl⟩, rfl⟩
    · rintro ⟨_, _, ⟨_, _, ⟨rfl, rfl⟩, -, -, rfl, rfl⟩, rfl⟩
      rfl

/-- A decimal is a mantissa, and an exponent if there is a mark. -/
theorem isDecimal_iff {cs : List Char} {t : WrittenDecimal} : IsDecimal cs t ↔ ∃ body, IsMantissa body t.digits t.places ∧
    (splitFirst (fun c => c = 'e' || c = 'E') cs = (body, none) ∧ t.exponent = 0 ∨
      ∃ es, splitFirst (fun c => c = 'e' || c = 'E') cs = (body, some es) ∧ IsInteger es t.exponent) := by
  have hmantissa {cs : List Char} {n k : ℕ} (h : IsMantissa cs n k) : ∀ c ∈ cs, (c = 'e' || c = 'E' : Bool) = false := by
    intro c hc
    rw [Bool.or_eq_false_iff, decide_eq_false_iff_not, decide_eq_false_iff_not]
    constructor <;> rintro rfl <;> exact absurd (h.chars _ hc) (by decide)
  constructor
  · intro h
    cases h with
    | plain h => exact ⟨_, h, .inl ⟨splitFirst_of_forall (hmantissa h), rfl⟩⟩
    | scaled h hmark he =>
      exact ⟨_, h, .inr ⟨_, splitFirst_append (hmantissa h) (by rcases hmark with rfl | rfl <;> rfl), he⟩⟩
  · rintro ⟨body, hbody, ⟨hsplit, hexp⟩ | ⟨es, hsplit, he⟩⟩ <;>
      rcases splitFirst_cases (fun c => c = 'e' || c = 'E') cs with h | ⟨before, c, behind, h, hc, rfl⟩ <;>
      rw [hsplit] at h <;> cases h
    · rcases t with ⟨n, k, e⟩
      cases hexp
      exact .plain hbody
    · exact .scaled hbody (by simpa using hc) he

theorem WrittenDecimal.Readable.toInt_ofInt {t : WrittenDecimal} (h : t.Readable) :
    (Int64.ofInt t.exponent).toInt = t.exponent := by
  have hmax : maxExponent = 100000 := rfl
  apply Int64.toInt_ofInt_of_le <;> rcases h with h | h
  all_goals first | rw [abs_le] at h; omega | omega

theorem readDecimal?_eq_some_iff {cs : List Char} {d : DecimalNumber} :
    readDecimal? cs = some d ↔ ∃ t, IsDecimal cs t ∧ t.Readable ∧ d = t.read := by
  simp only [isDecimal_iff]
  rw [readDecimal?]
  rcases splitFirst (fun c => c = 'e' || c = 'E') cs with ⟨body, _ | es⟩
  · simp only [readMantissa?_eq_some_iff, Prod.mk.injEq, and_true, reduceCtorEq, and_false, false_and, exists_false, or_false]
    constructor
    · rintro ⟨n, k, h, rfl⟩
      exact ⟨⟨n, k, 0⟩, ⟨body, h, rfl, rfl⟩, .inl (by simp), rfl⟩
    · rintro ⟨⟨n, k, _⟩, ⟨_, h, rfl, rfl⟩, -, rfl⟩
      exact ⟨n, k, h, rfl⟩
  · simp only [Option.bind_eq_some_iff, readExponent?_eq_some_iff, readMantissa?_eq_some_iff, Prod.mk.injEq, reduceCtorEq,
      and_false, false_and, false_or, Option.some.injEq]
    constructor
    · rintro ⟨w, ⟨he, hw⟩, n, k, h, rfl⟩
      exact ⟨⟨n, k, w.toInt⟩, ⟨body, h, es, ⟨rfl, rfl⟩, he⟩, hw, by rw [WrittenDecimal.read, Int64.ofInt_toInt]⟩
    · rintro ⟨t, ⟨_, h, _, ⟨rfl, rfl⟩, he⟩, ht, rfl⟩
      exact ⟨_, by rw [ht.toInt_ofInt]; exact ⟨he, ht⟩, _, _, h, rfl⟩

/-! ### The factor `π` -/

theorem eq_or_of_toLower {c d : Char} (h : c.toLower = d) : c = d ∨ c.val = d.val - 32 := by
  by_cases hupper : 'A'.val ≤ c.val ∧ c.val ≤ 'Z'.val
  · have hlower : c.toLower.val = c.val + 32 := congrArg Char.val (dif_pos hupper)
    right
    rw [← h, hlower, UInt32.add_sub_cancel]
  · have hsame : c.toLower = c := dif_neg hupper
    exact .inl (hsame.symm.trans h)

/-- Letters are compared in lower case. -/
theorem map_toLower_eq_pi_iff {cs : List Char} :
    cs.map Char.toLower = ['p', 'i'] ↔ ∃ p i, (p = 'p' ∨ p = 'P') ∧ (i = 'i' ∨ i = 'I') ∧ cs = [p, i] := by
  simp only [List.map_eq_cons_iff, List.map_eq_nil_iff]
  constructor
  · rintro ⟨p, _, rfl, hp, i, _, rfl, hi, rfl⟩
    exact ⟨p, i, (eq_or_of_toLower hp).imp_right Char.ext, (eq_or_of_toLower hi).imp_right Char.ext, rfl⟩
  · rintro ⟨p, i, hp, hi, rfl⟩
    refine ⟨p, [i], rfl, ?_, i, [], rfl, ?_, rfl⟩
    · rcases hp with rfl | rfl <;> rfl
    · rcases hi with rfl | rfl <;> rfl

theorem dropEnding?_eq_some_iff {ending cs coefficient : List Char} :
    dropEnding? ending cs = some coefficient ↔ cs = coefficient ++ ending := by
  rw [dropEnding?]
  constructor
  · intro h
    split at h
    · next hsuffix =>
      cases h
      exact (List.suffix_iff_eq_append.1 (List.isSuffixOf_iff_suffix.1 hsuffix)).symm
    · cases h
  · rintro rfl
    rw [if_pos (List.isSuffixOf_iff_suffix.2 (List.suffix_append _ _)), List.length_append, Nat.add_sub_cancel,
      List.take_left]

theorem dropBeginning?_eq_some_iff {beginning cs coefficient : List Char} :
    dropBeginning? beginning cs = some coefficient ↔ cs = beginning ++ coefficient := by
  rw [dropBeginning?]
  constructor
  · intro h
    split at h
    · next hprefix =>
      cases h
      exact (List.prefix_iff_eq_append.1 (List.isPrefixOf_iff_prefix.1 hprefix)).symm
    · cases h
  · rintro rfl
    rw [if_pos (List.isPrefixOf_iff_prefix.2 (List.prefix_append _ _)), List.drop_left]

namespace IsDecimal

variable {ds b : List Char} {t : WrittenDecimal}

theorem readNumerator?_timesPi (h : IsDecimal ds t) (ht : t.Readable) (hb : AllBlank b) :
    readNumerator? (ds ++ b ++ ['*', 'p', 'i']) = some (t.read, true) := by
  have hpi : (ds ++ b ++ ['*', 'p', 'i']).map Char.toLower ≠ ['p', 'i'] := fun heq => by
    have hlength := congrArg List.length heq
    simp only [List.length_map, List.length_append, List.length_cons, List.length_nil] at hlength
    omega
  have hending : dropEnding? "*pi".toList (ds ++ b ++ ['*', 'p', 'i']) = some (ds ++ b) := dropEnding?_eq_some_iff.2 rfl
  have htrim : trimBlanks (ds ++ b) = ds := (Surrounded.append_right ds hb).trimBlanks_eq h.trimmed
  rw [readNumerator?, if_neg hpi, hending]
  simp only [Option.orElse_some, htrim, readDecimal?_eq_some_iff.2 ⟨t, h, ht, rfl⟩, Option.map_some]

/-- A decimal does not end in the last letter of `*pi`. -/
theorem readNumerator?_piTimes (h : IsDecimal ds t) (ht : t.Readable) (hb : AllBlank b) :
    readNumerator? (['p', 'i', '*'] ++ b ++ ds) = some (t.read, true) := by
  have hpi : (['p', 'i', '*'] ++ b ++ ds).map Char.toLower ≠ ['p', 'i'] := fun heq => by
    simpa using congrArg List.length heq
  have hending : dropEnding? "*pi".toList (['p', 'i', '*'] ++ b ++ ds) = none := by
    refine Option.eq_none_iff_forall_ne_some.2 fun coefficient hsome => ?_
    have hlast := congrArg List.getLast? (dropEnding?_eq_some_iff.1 hsome)
    rw [List.getLast?_append_of_ne_nil _ h.ne_nil, List.getLast?_append_of_ne_nil _ (by decide)] at hlast
    exact h.not_mem (c := 'i') (by simp) (List.mem_of_getLast? hlast)
  have hbeginning : dropBeginning? "pi*".toList (['p', 'i', '*'] ++ b ++ ds) = some (b ++ ds) :=
    dropBeginning?_eq_some_iff.2 (List.append_assoc _ _ _)
  have htrim : trimBlanks (b ++ ds) = ds := (Surrounded.append_left ds hb).trimBlanks_eq h.trimmed
  rw [readNumerator?, if_neg hpi, hending]
  simp only [Option.orElse_none, hbeginning, htrim, readDecimal?_eq_some_iff.2 ⟨t, h, ht, rfl⟩, Option.map_some]

/-- There is no star and no letter of `pi` in a decimal. -/
theorem readNumerator?_plain (h : IsDecimal ds t) (ht : t.Readable) : readNumerator? ds = some (t.read, false) := by
  have hstar : '*' ∉ ds := h.not_mem (by simp)
  have hpi : ds.map Char.toLower ≠ ['p', 'i'] := fun heq => by
    obtain ⟨p, i, hp, -, rfl⟩ := map_toLower_eq_pi_iff.1 heq
    exact h.not_mem (c := p) (by rcases hp with rfl | rfl <;> simp) (by simp)
  have hending : dropEnding? "*pi".toList ds = none := by
    refine Option.eq_none_iff_forall_ne_some.2 fun coefficient hsome => hstar ?_
    rw [dropEnding?_eq_some_iff.1 hsome]
    exact List.mem_append_right _ (by decide)
  have hbeginning : dropBeginning? "pi*".toList ds = none := by
    refine Option.eq_none_iff_forall_ne_some.2 fun coefficient hsome => hstar ?_
    rw [dropBeginning?_eq_some_iff.1 hsome]
    exact List.mem_append_left _ (by decide)
  rw [readNumerator?, if_neg hpi, hending]
  simp only [Option.orElse_none, hbeginning, readDecimal?_eq_some_iff.2 ⟨t, h, ht, rfl⟩, Option.map_some]

end IsDecimal

theorem IsMultiple.readNumerator?_eq {cs : List Char} {t : WrittenDecimal} {timesPi : Bool} (h : IsMultiple cs t timesPi)
    (ht : t.Readable) : readNumerator? cs = some (t.read, timesPi) := by
  cases h with
  | pi hp hi =>
    rw [readNumerator?, if_pos (map_toLower_eq_pi_iff.2 ⟨_, _, hp, hi, rfl⟩), WrittenDecimal.read_ofNat]
  | timesPi h hb => exact h.readNumerator?_timesPi ht hb
  | piTimes h hb => exact h.readNumerator?_piTimes ht hb
  | plain h => exact h.readNumerator?_plain ht

/-- What is read in front of the slash is a multiple, possibly with blanks around it. -/
theorem exists_isMultiple {cs : List Char} {d : DecimalNumber} {timesPi : Bool} (h : readNumerator? cs = some (d, timesPi)) :
    ∃ cs' t, IsMultiple cs' t timesPi ∧ Surrounded cs' cs ∧ t.Readable ∧ d = t.read := by
  rw [readNumerator?] at h
  split at h
  · next hpi =>
    cases h
    obtain ⟨p, i, hp, hi, rfl⟩ := map_toLower_eq_pi_iff.1 hpi
    exact ⟨_, _, .pi hp hi, .refl _, WrittenDecimal.readable_ofNat 1, (WrittenDecimal.read_ofNat 1).symm⟩
  · split at h
    · next coefficient hcoefficient =>
      obtain ⟨d, hd, hpair⟩ := Option.map_eq_some_iff.1 h
      cases hpair
      obtain ⟨t, hdecimal, ht, rfl⟩ := readDecimal?_eq_some_iff.1 hd
      obtain ⟨b, b', hb, hb', hsurrounded⟩ := surrounded_trimBlanks coefficient
      generalize trimBlanks coefficient = ds at hdecimal hsurrounded
      rcases (Option.orElse_eq_some _ _ _).1 hcoefficient with hending | ⟨-, hbeginning⟩
      · obtain rfl := dropEnding?_eq_some_iff.1 hending
        refine ⟨_, t, .timesPi hdecimal hb', ?_, ht, rfl⟩
        rw [hsurrounded]
        simpa using Surrounded.append_left (ds ++ b' ++ ['*', 'p', 'i']) hb
      · obtain rfl := dropBeginning?_eq_some_iff.1 hbeginning
        refine ⟨_, t, .piTimes hdecimal hb, ?_, ht, rfl⟩
        rw [hsurrounded]
        simpa using Surrounded.append_right (['p', 'i', '*'] ++ b ++ ds) hb'
    · obtain ⟨d, hd, hpair⟩ := Option.map_eq_some_iff.1 h
      cases hpair
      obtain ⟨t, hdecimal, ht, rfl⟩ := readDecimal?_eq_some_iff.1 hd
      exact ⟨_, _, .plain hdecimal, .refl _, ht, rfl⟩

/-! ### The sign -/

theorem IsMultiple.takeSign_eq {cs : List Char} {t : WrittenDecimal} {timesPi : Bool} (h : IsMultiple cs t timesPi) :
    takeSign cs = (false, cs) := by
  obtain ⟨c, rest, rfl, hminus, hplus⟩ := h.head
  have htrim : trimBlanks (c :: rest) = c :: rest := h.trimmed.trimBlanks_eq
  rw [takeSign.eq_def]
  split
  · next heq => cases heq; exact absurd rfl hminus
  · next heq => cases heq; exact absurd rfl hplus
  · rw [htrim]

theorem IsSigned.exists_takeSign {cs : List Char} {t : WrittenDecimal} {negative timesPi : Bool}
    (h : IsSigned cs negative t timesPi) : ∃ cs', takeSign cs = (negative, cs') ∧ IsMultiple cs' t timesPi := by
  cases h with
  | plain h => exact ⟨_, h.takeSign_eq, h⟩
  | plus h hb => exact ⟨_, by rw [takeSign, (Surrounded.append_left _ hb).trimBlanks_eq h.trimmed], h⟩
  | minus h hb => exact ⟨_, by rw [takeSign, (Surrounded.append_left _ hb).trimBlanks_eq h.trimmed], h⟩

theorem exists_isSigned {cs cs' rest : List Char} {t : WrittenDecimal} {negative timesPi : Bool} (h : IsMultiple cs' t timesPi)
    (hcs' : Surrounded cs' rest) (hsign : takeSign cs = (negative, rest)) :
    ∃ ds, IsSigned ds negative t timesPi ∧ Surrounded ds cs := by
  rw [takeSign.eq_def] at hsign
  split at hsign <;> cases hsign <;> obtain ⟨b, b', hb, hb', rfl⟩ := hcs'.trans (surrounded_trimBlanks _)
  · exact ⟨_, .minus h hb, Surrounded.append_right ('-' :: (b ++ cs')) hb'⟩
  · exact ⟨_, .plus h hb, Surrounded.append_right ('+' :: (b ++ cs')) hb'⟩
  · exact ⟨_, .plain h, b, b', hb, hb', rfl⟩

/-! ### Literals -/

/-- A literal as it is read. -/
def WrittenLiteral.read (t : WrittenLiteral) (h : 0 < t.den.read.num) : Literal :=
  ofParts t.negative t.timesPi t.num.read t.den.read h

/-- A text without a slash has the denominator one. -/
theorem WrittenLiteral.read_whole (negative timesPi : Bool) (n : WrittenDecimal) (h : 0 < (WrittenDecimal.ofNat 1).read.num) :
    WrittenLiteral.read ⟨negative, timesPi, n, .ofNat 1⟩ h = ofParts negative timesPi n.read ⟨1, 0⟩ (by decide) := by
  rw [read]
  congr 1
  exact WrittenDecimal.read_ofNat 1

/-- A readable text is read, unless the second decimal is zero. -/
theorem IsLiteral.readTrimmed_eq {cs : List Char} {t : WrittenLiteral} (h : IsLiteral cs t) (ht : t.Readable) :
    readTrimmed (trimBlanks cs) = if h : 0 < t.den.read.num then .ok (t.read h)
      else .error (.zeroDenominator (String.ofList (trimBlanks cs))) := by
  cases h with
  | @whole text _ _ _ n h htext =>
    obtain ⟨numerator, hsign, hmultiple⟩ := h.exists_takeSign
    rw [htext.trimBlanks_eq h.trimmed, readTrimmed, splitFirst_of_not_mem h.slash_not_mem]
    simp only [h.trimmed.trimBlanks_eq, hsign, hmultiple.readNumerator?_eq ht.1]
    rw [dif_pos (by decide), WrittenLiteral.read_whole]
  | @quotient text ds _ _ _ _ n d h hbefore hd hbehind =>
    obtain ⟨numerator, hsign, hmultiple⟩ := h.exists_takeSign
    obtain ⟨b₁, b₂, hb₁, hb₂, rfl⟩ := hbefore
    obtain ⟨b₃, b₄, hb₃, hb₄, rfl⟩ := hbehind
    have htrim : trimBlanks (b₁ ++ text ++ b₂ ++ '/' :: (b₃ ++ ds ++ b₄)) = text ++ b₂ ++ '/' :: (b₃ ++ ds) := by
      refine Surrounded.trimBlanks_eq ⟨b₁, b₄, hb₁, hb₄, by simp⟩ ?_
      have happend := h.trimmed.append h.ne_nil hd.trimmed hd.ne_nil (b₂ ++ '/' :: b₃)
      simpa using happend
    have hslash : '/' ∉ text ++ b₂ := List.not_mem_append h.slash_not_mem (hb₂.not_mem (by decide))
    have hsplit : splitFirst (· = '/') (text ++ b₂ ++ '/' :: (b₃ ++ ds)) = (text ++ b₂, some (b₃ ++ ds)) :=
      splitFirst_append_of_not_mem hslash
    have hfront : trimBlanks (text ++ b₂) = text := (Surrounded.append_right text hb₂).trimBlanks_eq h.trimmed
    have hback : trimBlanks (b₃ ++ ds) = ds := (Surrounded.append_left ds hb₃).trimBlanks_eq hd.trimmed
    rw [htrim, readTrimmed, hsplit]
    simp only [hfront, hback, hsign, hmultiple.readNumerator?_eq ht.1, readDecimal?_eq_some_iff.2 ⟨d, hd, ht.2, rfl⟩]
    rfl

/-- A text that is not refused as a whole says a readable literal. -/
theorem exists_isLiteral {cs : List Char}
    (hcs : readTrimmed (trimBlanks cs) ≠ .error (.unreadable (String.ofList (trimBlanks cs)))) :
    ∃ t, IsLiteral cs t ∧ t.Readable := by
  obtain ⟨b₁, b₂, hb₁, hb₂, htrim⟩ := surrounded_trimBlanks cs
  rw [readTrimmed] at hcs
  rcases hsign : takeSign (trimBlanks (splitFirst (· = '/') (trimBlanks cs)).1) with ⟨negative, numerator⟩
  simp only [hsign] at hcs
  split at hcs
  · exact absurd rfl hcs
  · next n timesPi hnumerator =>
    obtain ⟨ds, t, hmultiple, hds, ht, rfl⟩ := exists_isMultiple hnumerator
    obtain ⟨es, hes, hsurrounded⟩ := exists_isSigned hmultiple hds hsign
    have hbefore := hsurrounded.trans (surrounded_trimBlanks _)
    rcases splitFirst_cases (· = '/') (trimBlanks cs) with hsplit | ⟨before, c, behind, hsplit, hc, htext⟩
    · rw [hsplit] at hbefore
      exact ⟨_, .whole hes (hbefore.trans ⟨b₁, b₂, hb₁, hb₂, htrim⟩), ht, WrittenDecimal.readable_ofNat 1⟩
    · obtain rfl := of_decide_eq_true hc
      rw [hsplit] at hcs hbefore
      simp only at hcs
      split at hcs
      · exact absurd rfl hcs
      · next d hd =>
        obtain ⟨t', hdecimal, ht', -⟩ := readDecimal?_eq_some_iff.1 hd
        have hbefore' : Surrounded es (b₁ ++ before) := hbefore.trans (.append_left before hb₁)
        have hbehind : Surrounded (trimBlanks behind) (behind ++ b₂) :=
          (surrounded_trimBlanks behind).trans (.append_right behind hb₂)
        have hwhole : cs = b₁ ++ before ++ '/' :: (behind ++ b₂) := by
          rw [htrim, htext]
          simp
        exact ⟨⟨negative, timesPi, t, t'⟩, hwhole ▸ .quotient hes hbefore' hdecimal hbehind, ht, ht'⟩

theorem ofText_of_isLiteral {s : String} {t : WrittenLiteral} (h : IsLiteral s.toList t) (ht : t.Readable) :
    ofText s = if h : 0 < t.den.read.num then .ok (t.read h)
      else .error (.domain (.zeroDenominator (String.ofList (trimBlanks s.toList)))) := by
  rw [ofText, h.readTrimmed_eq ht]
  by_cases hpos : 0 < t.den.read.num <;> simp only [hpos, dite_true, dite_false]

theorem ofText_of_not_isLiteral {s : String} (h : ∀ t, IsLiteral s.toList t → ¬t.Readable) :
    ofText s = .error (.domain (.unreadable (String.ofList (trimBlanks s.toList)))) := by
  have hread : readTrimmed (trimBlanks s.toList) = .error (.unreadable (String.ofList (trimBlanks s.toList))) := by
    by_contra hne
    obtain ⟨t, hliteral, ht⟩ := exists_isLiteral hne
    exact h t hliteral ht
  rw [ofText, hread]

/-! ### Values -/

namespace DecimalNumber

theorem count_ofInt (n : ℤ) : count (Int64.ofInt n) = (n % 2 ^ 32).toNat := by
  rw [count, UInt64.toNat_toUInt32, ← Int64.toNat_toBitVec, Int64.toBitVec_ofInt, BitVec.toNat_ofInt]
  omega

/-- As long as the power of ten fits into half a word, the fraction is the number. -/
theorem num_div_den (m : ℕ) {n : ℤ} (hn : |n| < 2 ^ 32) :
    ((⟨m, .ofInt n⟩ : DecimalNumber).num : ℚ) / (⟨m, .ofInt n⟩ : DecimalNumber).den = m * 10 ^ n := by
  have hsign : 0 ≤ Int64.ofInt n ↔ 0 ≤ n := by
    rw [abs_lt] at hn
    rw [Int64.le_iff_toInt_le, Int64.toInt_ofInt_of_le (by omega) (by omega), Int64.toInt_zero]
  have hcount {k : ℕ} (hk : (k : ℤ) < 2 ^ 32) : (tenPow (count (Int64.ofInt k)) : ℚ) = 10 ^ k := by
    have hk' : ((k : ℤ) % 2 ^ 32).toNat = k := by omega
    have hpow : tenPow k = 10 ^ k := rfl
    rw [count_ofInt, hk', hpow, Nat.cast_pow, Nat.cast_ofNat]
  rcases le_or_gt 0 n with hnonneg | hneg
  · obtain ⟨k, rfl⟩ := Int.eq_ofNat_of_zero_le hnonneg
    rw [abs_of_nonneg hnonneg] at hn
    rw [num, den, if_pos (hsign.2 hnonneg), if_pos (hsign.2 hnonneg), Nat.cast_mul, hcount hn, Nat.cast_one, div_one,
      zpow_natCast]
  · obtain ⟨k, hk⟩ := Int.eq_ofNat_of_zero_le (neg_nonneg.2 hneg.le)
    rw [abs_of_neg hneg, hk] at hn
    rw [num, den, if_neg (mt hsign.1 hneg.not_ge), if_neg (mt hsign.1 hneg.not_ge), ← Int64.ofInt_neg, hk, hcount hn,
      ← neg_neg n, hk, zpow_neg, zpow_natCast, div_eq_mul_inv]

theorem num_pos_iff (d : DecimalNumber) : 0 < d.num ↔ d.digits ≠ 0 := by
  rw [num, Nat.pos_iff_ne_zero]
  split
  · rw [Nat.mul_ne_zero_iff, and_iff_left (tenPow_pos _).ne']
  · rfl

end DecimalNumber

theorem WrittenDecimal.Bounded.readable {d : WrittenDecimal} (h : d.Bounded) : d.Readable := .inl h

/-- Reading a decimal is exact if its exponent is within the bound and its places are not too many for half a word. -/
theorem WrittenDecimal.Bounded.read_eq {d : WrittenDecimal} (h : d.Bounded) (hplaces : d.places + maxExponent < 2 ^ 32) :
    (d.read.num : ℚ) / d.read.den = d.value := by
  have hpower : |d.exponent - d.places| < 2 ^ 32 := by
    rw [Bounded, abs_le] at h
    rw [abs_lt]
    omega
  have hread : d.read = ⟨d.digits, .ofInt (d.exponent - d.places)⟩ := by
    rw [WrittenDecimal.read, Int64.ofInt_sub, Int64.ofInt_eq_ofNat]
  rw [hread, DecimalNumber.num_div_den _ hpower, value]

theorem WrittenLiteral.read_eq {t : WrittenLiteral} {n : ℕ} (ht : t.Bounded) (hplaces : t.num.places ≤ n ∧ t.den.places ≤ n)
    (hn : n + maxExponent < 2 ^ 32) (h : 0 < t.den.read.num) : ((t.read h).num : ℚ) / (t.read h).den = t.value := by
  have hnum := ht.1.read_eq (by omega)
  have hden := ht.2.read_eq (by omega)
  have hsign : ((t.read h).num : ℚ) = (if t.negative then -1 else 1) * (t.num.read.num * t.den.read.den) := by
    rw [WrittenLiteral.read, ofParts]
    split <;> push_cast <;> ring
  have hfraction : ((t.read h).den : ℚ) = t.num.read.den * t.den.read.num := Nat.cast_mul _ _
  rw [value, ← hnum, ← hden, hsign, hfraction, ← mul_div_assoc, div_div_div_eq, mul_assoc]

/-- The three outcomes of reading a text, and the number that is read. -/
theorem ofText_outcome (s : String) :
    ((∃ l, ofText s = .ok l) ↔ ∃ t, IsLiteral s.toList t ∧ t.Readable ∧ t.den.digits ≠ 0) ∧
    (∀ t, IsLiteral s.toList t → t.Readable → t.den.digits = 0 →
      ofText s = .error (.domain (.zeroDenominator (String.ofList (trimBlanks s.toList))))) ∧
    ((∀ t, IsLiteral s.toList t → ¬t.Readable) →
      ofText s = .error (.domain (.unreadable (String.ofList (trimBlanks s.toList))))) ∧
    ∀ t, IsLiteral s.toList t → t.Bounded → t.den.digits ≠ 0 → s.length + maxExponent < 2 ^ 32 →
      ∃ l, ofText s = .ok l ∧ (l.num : ℚ) / l.den = t.value ∧ l.timesPi = t.timesPi := by
  have hpos (t : WrittenLiteral) : 0 < t.den.read.num ↔ t.den.digits ≠ 0 := t.den.read.num_pos_iff
  refine ⟨⟨?_, ?_⟩, ?_, ofText_of_not_isLiteral, ?_⟩
  · rintro ⟨l, hl⟩
    by_cases hliteral : ∃ t, IsLiteral s.toList t ∧ t.Readable
    · obtain ⟨t, hliteral, ht⟩ := hliteral
      refine ⟨t, hliteral, ht, (hpos t).1 ?_⟩
      by_contra hzero
      rw [ofText_of_isLiteral hliteral ht, dif_neg hzero] at hl
      cases hl
    · rw [ofText_of_not_isLiteral fun t hs ht => hliteral ⟨t, hs, ht⟩] at hl
      cases hl
  · rintro ⟨t, hliteral, ht, hdigits⟩
    exact ⟨_, by rw [ofText_of_isLiteral hliteral ht, dif_pos ((hpos t).2 hdigits)]⟩
  · intro t hliteral ht hdigits
    rw [ofText_of_isLiteral hliteral ht, dif_neg (by rw [hpos, not_not, hdigits])]
  · intro t hliteral ht hdigits hlength
    refine ⟨t.read ((hpos t).2 hdigits), ?_, ?_, rfl⟩
    · rw [ofText_of_isLiteral hliteral ⟨ht.1.readable, ht.2.readable⟩, dif_pos]
    · exact WrittenLiteral.read_eq ht hliteral.places_le hlength _

/-- Blanks around all parts, a sign, a point, an exponent and `π`; then the least word as an exponent, a denominator that is
zero, and the empty text. -/
theorem ofText_outcome_signed :
    IsLiteral " - 2.5e-1 *pi / 1.5 ".toList ⟨true, true, ⟨25, 1, -1⟩, ⟨15, 1, 0⟩⟩ ∧
    (∃ l, ofText " - 2.5e-1 *pi / 1.5 " = .ok l ∧ (l.num : ℚ) / l.den = -1 / 6 ∧ l.timesPi = true) ∧
    (∃ l, ofText "1e-9223372036854775808" = .ok l) ∧
    ofText "2/.0" = .error (.domain (.zeroDenominator "2/.0")) ∧ ofText "" = .error (.domain (.unreadable "")) := by
  have hone : AllDigits ['1'] := by decide
  have htwo : AllDigits ['2'] := by decide
  have hleastWord : AllDigits "9223372036854775808".toList := by decide
  have hmantissa {a b : Char} (h : AllDigits ([a] ++ [b])) :
      IsMantissa [a, '.', b] (Nat.ofDigitChars 10 [a, b] 0) 1 := .point (by simp) h
  have hnum : IsSigned "- 2.5e-1 *pi".toList true ⟨25, 1, -1⟩ true :=
    .minus (b := [' ']) (.timesPi (b := [' ']) (.scaled (hmantissa (by decide)) (.inl rfl) (.minus (by simp) hone))
      (by decide)) (by decide)
  have hden : IsDecimal "1.5".toList ⟨15, 1, 0⟩ := .plain (hmantissa (by decide))
  have hliteral : IsLiteral " - 2.5e-1 *pi / 1.5 ".toList ⟨true, true, ⟨25, 1, -1⟩, ⟨15, 1, 0⟩⟩ :=
    .quotient hnum ⟨[' '], [' '], by decide, by decide, rfl⟩ hden ⟨[' '], [' '], by decide, by decide, rfl⟩
  have hleast : IsLiteral "1e-9223372036854775808".toList ⟨false, false, ⟨1, 0, -2 ^ 63⟩, .ofNat 1⟩ :=
    .whole (.plain (.plain (.scaled (.whole (by simp) hone) (.inl rfl) (.minus (by simp) hleastWord)))) (.refl _)
  have hpoint : IsMantissa ".0".toList 0 1 := .point (by simp) (by decide : AllDigits ([] ++ ['0']))
  have hzero : IsLiteral "2/.0".toList ⟨false, false, ⟨2, 0, 0⟩, ⟨0, 1, 0⟩⟩ :=
    .quotient (.plain (.plain (.plain (.whole (by simp) htwo)))) (.refl _) (.plain hpoint) (.refl _)
  have hempty (t : WrittenLiteral) : ¬IsLiteral "".toList t := by
    intro h
    generalize hcs : "".toList = cs at h
    cases h with
    | whole h htext =>
      subst hcs
      exact h.ne_nil (List.length_eq_zero_iff.1 (Nat.le_zero.1 htext.length_le))
    | quotient _ _ _ _ => simp at hcs
  have hvalue : WrittenLiteral.value ⟨true, true, ⟨25, 1, -1⟩, ⟨15, 1, 0⟩⟩ = -1 / 6 := by
    simp only [WrittenLiteral.value, WrittenDecimal.value]
    norm_num
  have hsigned := (ofText_outcome " - 2.5e-1 *pi / 1.5 ").2.2.2 _ hliteral (by decide) (by decide) (by decide)
  rw [hvalue] at hsigned
  exact ⟨hliteral, hsigned, (ofText_outcome _).1.2 ⟨_, hleast, by decide, by decide⟩,
    (ofText_outcome _).2.1 _ hzero (by decide) rfl, (ofText_outcome "").2.2.1 fun t h => absurd h (hempty t)⟩

/-- The least word as an exponent counts as none. -/
example : ofText "1e-9223372036854775808" = .ok ⟨1, 1, false, Nat.one_pos⟩ := by decide

end CliffordT.Literal

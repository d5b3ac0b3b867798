import CliffordT.Proofs.Number.Bits
import CliffordT.Proofs.Ring.Order
import CliffordT.NormEquation.UnitLog

/-!
Totally positive units of norm one are the even powers of `λ`, and the logarithm finds the power.

A totally positive unit that is not one gets a smaller integer part when it is brought towards one by a factor `λ²` or
`λ⁻²`, which makes it a power. The loop multiplies by the same factors. A power stays on its side of one until it is
one, so the loop ends after as many rounds as the logarithm says and is never led past one; and since the integer part has
twice as many bits, the bound on the number of steps suffices.
-/

namespace CliffordT

namespace QuadInt

theorem pow_eq (x : QuadInt) (e : ℕ) : x.pow e = x ^ e := by
  induction e using Nat.strong_induction_on generalizing x with
  | _ e ih =>
    rw [QuadInt.pow]
    split
    · next h => rw [h, pow_zero]
    · next h =>
      have hsplit : x ^ e = (x * x) ^ (e / 2) * x ^ (e % 2) := by
        rw [← pow_two, ← pow_mul, ← pow_add, Nat.div_add_mod]
      rw [ih _ (by omega), hsplit]
      obtain heven | hodd := Nat.mod_two_eq_zero_or_one e
      · simp [heven]
      · simp [hodd]

end QuadInt

namespace UnitLog

open QuadInt

/-! ### Powers of the unit -/

/-- The fundamental unit as a unit. -/
def lambdaUnit : QuadIntˣ where
  val := lambda
  inv := lambdaInv
  val_inv := by decide
  inv_val := by decide

theorem lambdaPow_eq (m : ℤ) : lambdaPow m = (lambdaUnit ^ m : QuadIntˣ) := by
  cases m with
  | ofNat n =>
    rw [lambdaPow, pow_eq, Int.ofNat_eq_natCast, zpow_natCast, Units.val_pow_eq_pow_val]
    rfl
  | negSucc n =>
    rw [lambdaPow, pow_eq, zpow_negSucc, ← inv_pow, Units.val_pow_eq_pow_val]
    rfl

theorem lambdaPow_mul (m n : ℤ) : lambdaPow m * lambdaPow n = lambdaPow (m + n) := by
  rw [lambdaPow_eq, lambdaPow_eq, lambdaPow_eq, ← Units.val_mul, ← zpow_add]

@[simp] theorem lambdaPow_zero : lambdaPow 0 = 1 := by
  rw [lambdaPow_eq, zpow_zero, Units.val_one]

theorem lambdaPow_mul_neg (m : ℤ) : lambdaPow m * lambdaPow (-m) = 1 := by
  rw [lambdaPow_mul, add_neg_cancel, lambdaPow_zero]

theorem lambdaPow_ne_zero (m : ℤ) : lambdaPow m ≠ 0 := by
  rw [lambdaPow_eq]
  exact Units.ne_zero _

theorem lambdaPow_neg_two : lambdaPow (-2) = ⟨3, -2⟩ := by
  rw [show (-2 : ℤ) = Int.negSucc 1 from rfl, lambdaPow, pow_eq]
  decide

end UnitLog

namespace QuadInt

theorem map_lambdaPow (f : QuadInt →+* ℝ) (n : ℤ) : f (lambdaPow n) = f UnitLog.lambdaUnit ^ n := by
  rw [UnitLog.lambdaPow_eq]
  exact (congrArg Units.val (map_zpow (Units.map f.toMonoidHom) UnitLog.lambdaUnit n)).trans
    (Units.val_zpow_eq_zpow_val _ n)

theorem realHom_lambdaPow (n : ℤ) : realHom (lambdaPow n) = (1 + √2) ^ n := by
  rw [map_lambdaPow]
  change (((1 : ℤ) : ℝ) + ((1 : ℤ) : ℝ) * √2) ^ n = _
  rw [Int.cast_one, one_mul]

end QuadInt

namespace UnitLog

open QuadInt

theorem norm_lambdaPow (k : ℤ) : (lambdaPow (2 * k)).norm = 1 := by
  have hunit : IsUnit (lambdaPow k) := by
    rw [lambdaPow_eq]
    exact Units.isUnit _
  rw [two_mul, ← lambdaPow_mul, norm_mul, ← Int.natAbs_mul_self, (isUnit_iff _).1 hunit]
  rfl

theorem bullet_lambdaPow (k : ℤ) : (lambdaPow (2 * k)).bullet = lambdaPow (-(2 * k)) := by
  apply mul_left_cancel₀ (lambdaPow_ne_zero (2 * k))
  rw [lambdaPow_mul_neg, mul_bullet, norm_lambdaPow, Int.cast_one]

theorem isTotallyNonneg_lambdaPow (k : ℤ) : (lambdaPow (2 * k)).isTotallyNonneg = true := by
  rw [isTotallyNonneg_iff_realHom, bullet_lambdaPow, realHom_lambdaPow, realHom_lambdaPow]
  constructor <;> positivity

theorem one_lt_lambda : 1 < 1 + √2 := lt_add_of_pos_right 1 (by positivity)

/-- A power lies on the side of one that its exponent lies on of zero. -/
theorem sign_lambdaPow_sub_one (k : ℤ) : (lambdaPow (2 * k) - 1).sign = compare k 0 := by
  have hmono : StrictMono fun k : ℤ => (1 + √2) ^ (2 * k) := fun j k hjk =>
    zpow_right_strictMono₀ one_lt_lambda (by omega)
  rw [sign_eq, map_sub, map_one, realHom_lambdaPow]
  calc compare ((1 + √2) ^ (2 * k) - 1) 0 = cmp ((1 + √2) ^ (2 * k)) ((1 + √2) ^ (2 * (0 : ℤ))) := by
        rw [mul_zero, zpow_zero, ← cmp_eq_compare, cmp_sub_zero]
    _ = compare k 0 := by rw [hmono.cmp_map_eq, cmp_eq_compare]

theorem four_pow_le (k : ℤ) : 4 ^ k.natAbs ≤ 2 * (lambdaPow (2 * k)).a := by
  -- twice the integer part is the power with its inverse added, and one of the two has a positive exponent
  have hsum := realHom_add_bullet (lambdaPow (2 * k))
  rw [bullet_lambdaPow, realHom_lambdaPow, realHom_lambdaPow] at hsum
  have hpos (m : ℤ) : 0 < (1 + √2) ^ m := by positivity
  have hlarge : (1 + √2) ^ (2 * (k.natAbs : ℤ)) ≤ 2 * (lambdaPow (2 * k)).a := by
    rw [← hsum]
    rcases Int.natAbs_eq k with h | h
    · rw [← h]
      linarith [hpos (-(2 * k))]
    · rw [show (k.natAbs : ℤ) = -k by omega, mul_neg]
      linarith [hpos (2 * k)]
  have hpow : (4 : ℝ) ^ k.natAbs ≤ (1 + √2) ^ (2 * (k.natAbs : ℤ)) := by
    rw [zpow_mul, zpow_natCast]
    refine pow_le_pow_left₀ (by norm_num) ?_ _
    have hroot : 1 ≤ √2 := Real.one_le_sqrt.2 (by norm_num)
    calc (4 : ℝ) = 2 ^ (2 : ℤ) := by norm_num
      _ ≤ (1 + √2) ^ (2 : ℤ) := zpow_le_zpow_left₀ (by norm_num) (by norm_num) (by linarith)
  exact_mod_cast hpow.trans hlarge

/-- The integer part has at least twice as many bits as the logarithm is large. -/
theorem two_mul_natAbs_le_bitLength (k : ℤ) : 2 * k.natAbs ≤ bitLength (lambdaPow (2 * k)).a.natAbs := by
  by_contra hlt
  obtain ⟨n, hn⟩ : ∃ n, 2 * k.natAbs = n + 1 := ⟨2 * k.natAbs - 1, by omega⟩
  have hshort := bitLength_le_iff.1 (by omega : bitLength (lambdaPow (2 * k)).a.natAbs ≤ n)
  have hpow : (4 : ℤ) ^ k.natAbs = 2 * 2 ^ n := by
    rw [show (4 : ℤ) = 2 ^ 2 from rfl, ← pow_mul, hn, pow_succ']
  have hfour := four_pow_le k
  have hcast : ((2 ^ n : ℕ) : ℤ) = 2 ^ n := by push_cast; rfl
  omega

theorem natAbs_le_natAbs_a (k : ℤ) : k.natAbs ≤ (lambdaPow (2 * k)).a.natAbs := by
  have hlen := two_mul_natAbs_le_bitLength k
  have := bitLength_le_iff.2 (Nat.lt_two_pow_self (n := (lambdaPow (2 * k)).a.natAbs))
  omega

/-! ### The units of norm one -/

/-- What one factor `λ⁻²` does to a unit above one. -/
theorem step_bounds {a b : ℤ} (hn : a * a - 2 * (b * b) = 1) (ha : 0 < a) (hb : 0 < b) :
    0 < 3 * a - 4 * b ∧ 3 * a - 4 * b < a ∧ 0 ≤ 3 * b - 2 * a := by
  have hb2 : 2 ≤ b := by
    by_contra hlt
    obtain rfl : b = 1 := by omega
    have hlow : 1 < a := by nlinarith
    have hhigh : a < 2 := by nlinarith
    omega
  refine ⟨?_, ?_, ?_⟩ <;> by_contra hlt <;> nlinarith

theorem eq_one_of_b_zero {v : QuadInt} (hn : v.norm = 1) (ha : 0 < v.a) (hb : v.b = 0) : v = 1 := by
  rw [QuadInt.norm, hb, mul_zero, mul_zero, sub_zero] at hn
  have h1 : v.a = 1 := by nlinarith
  ext
  · exact h1
  · exact hb

theorem exists_eq_lambdaPow_of_b_nonneg {v : QuadInt} (hn : v.norm = 1) (ha : 0 < v.a) (hb : 0 ≤ v.b) :
    ∃ k : ℤ, v = lambdaPow (2 * k) := by
  -- The integer part falls with every factor `λ⁻²`; the norm stays one and no part turns negative.
  induction hsize : v.a.natAbs using Nat.strong_induction_on generalizing v with
  | _ size ih =>
    rcases hb.eq_or_lt with hb | hb
    · refine ⟨0, ?_⟩
      rw [mul_zero, lambdaPow_zero, eq_one_of_b_zero hn ha hb.symm]
    · obtain ⟨hpos, hlt, hnonneg⟩ := step_bounds hn ha hb
      have hva : (v * lambdaPow (-2)).a = 3 * v.a - 4 * v.b := by
        rw [lambdaPow_neg_two, mul_a]
        ring
      have hvb : (v * lambdaPow (-2)).b = 3 * v.b - 2 * v.a := by
        rw [lambdaPow_neg_two, mul_b]
        ring
      have hnorm : (v * lambdaPow (-2)).norm = 1 := by
        rw [norm_mul, hn, lambdaPow_neg_two]
        rfl
      obtain ⟨k, hk⟩ := ih _ (by omega) hnorm (by omega) (by omega) rfl
      refine ⟨k + 1, ?_⟩
      calc v = v * lambdaPow (-2) * lambdaPow 2 := by rw [mul_assoc, lambdaPow_mul, neg_add_cancel, lambdaPow_zero, mul_one]
        _ = lambdaPow (2 * (k + 1)) := by rw [hk, lambdaPow_mul, mul_add_one]

theorem exists_eq_lambdaPow {v : QuadInt} (hn : v.norm = 1) (hv : v.isTotallyNonneg = true) :
    ∃ k : ℤ, v = lambdaPow (2 * k) := by
  have ha : 0 < v.a := by
    have hnonneg := ((isTotallyNonneg_iff v).1 hv).1
    have hne : v.a ≠ 0 := by
      intro h0
      rw [QuadInt.norm, h0] at hn
      nlinarith [mul_self_nonneg v.b]
    omega
  rcases le_total 0 v.b with hb | hb
  · exact exists_eq_lambdaPow_of_b_nonneg hn ha hb
  · obtain ⟨k, hk⟩ := exists_eq_lambdaPow_of_b_nonneg (v := v.bullet) (by rwa [norm_bullet]) ha (by rwa [bullet_b, neg_nonneg])
    refine ⟨-k, ?_⟩
    rw [← bullet_bullet v, hk, bullet_lambdaPow, mul_neg]

/-! ### The loop -/

/-- The loop from `v` on with the count `m`, with no bound on its rounds and no way out but one: it comes to the number one after
`rounds` rounds, with the count `out`. A number above one is divided by `λ²`, one below is multiplied with it, and no round leads from one
side of one to the other. -/
inductive Runs : QuadInt → ℤ → ℕ → ℤ → Prop
  | one {v : QuadInt} {m : ℤ} (h : (v - 1).sign = .eq) : Runs v m 0 m
  | down {v : QuadInt} {m out : ℤ} {rounds : ℕ} (h : (v - 1).sign = .gt) (hnext : (v * lambdaPow (-2) - 1).sign ≠ .lt)
      (rest : Runs (v * lambdaPow (-2)) (m + 1) rounds out) : Runs v m (rounds + 1) out
  | up {v : QuadInt} {m out : ℤ} {rounds : ℕ} (h : (v - 1).sign = .lt) (hnext : (v * lambdaPow 2 - 1).sign ≠ .gt)
      (rest : Runs (v * lambdaPow 2) (m - 1) rounds out) : Runs v m (rounds + 1) out

theorem runs_lambdaPow (k m : ℤ) : Runs (lambdaPow (2 * k)) m k.natAbs (m + k) := by
  induction k using Int.induction_on generalizing m with
  | zero =>
    rw [add_zero]
    exact .one (by rw [sign_lambdaPow_sub_one]; rfl)
  | succ n ih =>
    have hnext : lambdaPow (2 * (n + 1 : ℤ)) * lambdaPow (-2) = lambdaPow (2 * n) := by
      rw [lambdaPow_mul]
      ring_nf
    have hrest := ih (m + 1)
    rw [← hnext, show m + 1 + (n : ℤ) = m + (n + 1) by ring] at hrest
    refine .down ?_ ?_ hrest
    · rw [sign_lambdaPow_sub_one, compare_gt_iff_gt]
      omega
    · rw [hnext, sign_lambdaPow_sub_one, Ne, compare_lt_iff_lt]
      omega
  | pred n ih =>
    have hnext : lambdaPow (2 * (-(n : ℤ) - 1)) * lambdaPow 2 = lambdaPow (2 * -(n : ℤ)) := by
      rw [lambdaPow_mul]
      ring_nf
    have hrest := ih (m - 1)
    rw [← hnext, show m - 1 + -(n : ℤ) = m + (-(n : ℤ) - 1) by ring] at hrest
    rw [show (-(n : ℤ) - 1).natAbs = (-(n : ℤ)).natAbs + 1 by omega]
    refine .up ?_ ?_ hrest
    · rw [sign_lambdaPow_sub_one, compare_lt_iff_lt]
      omega
    · rw [hnext, sign_lambdaPow_sub_one, Ne, compare_gt_iff_gt]
      omega

namespace Runs

variable {v : QuadInt} {m out : ℤ} {rounds steps : ℕ}

/-- A number decides what the loop does with it. -/
theorem unique (h : Runs v m rounds out) {rounds' : ℕ} {out' : ℤ} (h' : Runs v m rounds' out') :
    rounds = rounds' ∧ out = out' := by
  induction h generalizing rounds' out' with
  | one h =>
    cases h' with
    | one => exact ⟨rfl, rfl⟩
    | down h' | up h' => cases h.symm.trans h'
  | down h _ _ ih =>
    cases h' with
    | one h' | up h' => cases h.symm.trans h'
    | down _ _ rest' =>
      obtain ⟨rfl, rfl⟩ := ih rest'
      exact ⟨rfl, rfl⟩
  | up h _ _ ih =>
    cases h' with
    | one h' | down h' => cases h.symm.trans h'
    | up _ _ rest' =>
      obtain ⟨rfl, rfl⟩ := ih rest'
      exact ⟨rfl, rfl⟩

theorem out_eq_of_one (h : Runs v m rounds out) (hone : (v - 1).sign = .eq) : out = m := (h.unique (.one hone)).2

/-- As long as no more rounds are needed than steps are left, their number makes no difference. -/
theorem descend_eq (h : Runs v m rounds out) (habove : (v - 1).sign = .gt) (hsteps : rounds ≤ steps) :
    descend v m steps = some out := by
  induction h generalizing steps with
  | one h | up h => cases h.symm.trans habove
  | down h hnext rest ih =>
    obtain ⟨steps, rfl⟩ := Nat.exists_eq_succ_of_ne_zero (by omega : steps ≠ 0)
    rw [descend]
    split
    · next heq => rw [rest.out_eq_of_one heq]
    · next hgt => exact ih hgt (by omega)
    · next hlt => exact absurd hlt hnext

theorem ascend_eq (h : Runs v m rounds out) (hbelow : (v - 1).sign = .lt) (hsteps : rounds ≤ steps) :
    ascend v m steps = some out := by
  induction h generalizing steps with
  | one h | down h => cases h.symm.trans hbelow
  | up h hnext rest ih =>
    obtain ⟨steps, rfl⟩ := Nat.exists_eq_succ_of_ne_zero (by omega : steps ≠ 0)
    rw [ascend]
    split
    · next heq => rw [rest.out_eq_of_one heq]
    · next hlt => exact ih hlt (by omega)
    · next hgt => exact absurd hgt hnext

theorem half?_eq (h : Runs v 0 rounds out) (hn : v.norm = 1) (hv : v.isTotallyNonneg = true)
    (hsteps : rounds ≤ v.a.natAbs) : half? v = some out := by
  rw [half?, if_pos ⟨hn, hv⟩]
  split
  · next hone => rw [h.out_eq_of_one hone]
  · next habove => exact h.descend_eq habove hsteps
  · next hbelow => exact h.ascend_eq hbelow hsteps

end Runs

/-! ### The logarithm -/

theorem half?_lambdaPow (k : ℤ) : half? (lambdaPow (2 * k)) = some k := by
  have hruns := runs_lambdaPow k 0
  rw [zero_add] at hruns
  exact hruns.half?_eq (norm_lambdaPow k) (isTotallyNonneg_lambdaPow k) (natAbs_le_natAbs_a k)

theorem half?_eq_none_iff (v : QuadInt) : half? v = none ↔ ¬(v.norm = 1 ∧ v.isTotallyNonneg = true) := by
  constructor
  · rintro hnone ⟨hn, hv⟩
    obtain ⟨k, rfl⟩ := exists_eq_lambdaPow hn hv
    rw [half?_lambdaPow] at hnone
    cases hnone
  · intro h
    exact if_neg h

/-- A totally positive unit of norm one is an even power of `λ`, and half of its logarithm is found. -/
theorem half?_spec {v : QuadInt} (hn : v.norm = 1) (hv : v.isTotallyNonneg = true) :
    ∃ m, half? v = some m ∧ v = lambdaPow m ^ 2 := by
  obtain ⟨m, rfl⟩ := exists_eq_lambdaPow hn hv
  refine ⟨m, half?_lambdaPow m, ?_⟩
  rw [pow_two, lambdaPow_mul, two_mul]

theorem half?_eq_some_iff (v : QuadInt) (m : ℤ) : half? v = some m ↔ v = lambdaPow (2 * m) := by
  constructor
  · intro h
    have hunit : v.norm = 1 ∧ v.isTotallyNonneg = true := by
      by_contra hno
      rw [(half?_eq_none_iff v).2 hno] at h
      cases h
    obtain ⟨k, rfl⟩ := exists_eq_lambdaPow hunit.1 hunit.2
    rw [half?_lambdaPow, Option.some_inj] at h
    rw [h]
  · rintro rfl
    exact half?_lambdaPow m

/-- The logarithm is found exactly for the numbers of norm one that are nonnegative together with their conjugates, and these are the
even powers of the fundamental unit. For every such number the loop ends by itself and is never led past one. It takes as
many rounds as the logarithm is large, and the integer part has at least twice as many bits. -/
theorem half?_exact (v : QuadInt) :
    (∀ m, half? v = some m ↔ v = (lambdaUnit ^ (2 * m) : QuadIntˣ)) ∧
      (half? v = none ↔ ¬(v.norm = 1 ∧ v.isTotallyNonneg = true)) ∧
      (v.norm = 1 → v.isTotallyNonneg = true → ∃ m, v = (lambdaUnit ^ (2 * m) : QuadIntˣ) ∧ half? v = some m ∧
        (∀ rounds out, Runs v 0 rounds out ↔ rounds = m.natAbs ∧ out = m) ∧ 2 * m.natAbs ≤ bitLength v.a.natAbs) := by
  simp only [← lambdaPow_eq]
  refine ⟨half?_eq_some_iff v, half?_eq_none_iff v, fun hn hv => ?_⟩
  obtain ⟨m, rfl⟩ := exists_eq_lambdaPow hn hv
  have hruns := runs_lambdaPow m 0
  rw [zero_add] at hruns
  refine ⟨m, rfl, half?_lambdaPow m, fun rounds out => ⟨fun h => h.unique hruns, ?_⟩, two_mul_natAbs_le_bitLength m⟩
  rintro ⟨rfl, rfl⟩
  exact hruns

/-- A number below one, the fourth power of `λ⁻²`. -/
theorem half?_exact_below_one : QuadInt.norm ⟨577, -408⟩ = 1 ∧ isTotallyNonneg ⟨577, -408⟩ = true ∧
    half? ⟨577, -408⟩ = some (-4) ∧ Runs ⟨577, -408⟩ 0 4 (-4) := by
  have hn : QuadInt.norm ⟨577, -408⟩ = 1 := by decide
  have hv : isTotallyNonneg ⟨577, -408⟩ = true := by decide
  have hlog : half? ⟨577, -408⟩ = some (-4) := ((half?_exact _).1 _).2 (by rfl)
  obtain ⟨m, -, hm, hruns, -⟩ := (half?_exact _).2.2 hn hv
  obtain rfl : -4 = m := by rwa [hlog, Option.some_inj] at hm
  exact ⟨hn, hv, hlog, (hruns 4 (-4)).2 ⟨rfl, rfl⟩⟩

end UnitLog

end CliffordT

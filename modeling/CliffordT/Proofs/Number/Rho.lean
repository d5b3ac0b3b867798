import Mathlib.Data.Nat.GCD.Basic
import CliffordT.Number.Rho
import CliffordT.Proofs.Number.Words

/-!
The rho method finds proper divisors only, and its budget ends it.

Each walk spends some of the budget, so a search with a given budget takes no more walks than that. What a walk reports is a
greatest common divisor with the number other than one, and the number itself is not accepted.
-/

namespace CliffordT

namespace Rho

theorem retrace_spec {n c x left y g rest : ℕ} (h : retrace n c x left y = .divisor g rest) :
    g ∣ n ∧ g ≠ 1 ∧ rest < left := by
  induction left generalizing y with
  | zero => cases h
  | succ left ih =>
    rw [retrace] at h
    split at h
    · obtain ⟨hdvd, hne, hlt⟩ := ih h
      exact ⟨hdvd, hne, by omega⟩
    · next hg =>
      cases h
      exact ⟨Nat.gcd_dvd_right _ _, hg, Nat.lt_succ_self _⟩

/-- A walk spends some of its budget, and finds a divisor other than one. -/
theorem walk_spec {n c budget x y q r k g rest : ℕ} (h : walk n c budget x y q r k = .divisor g rest) :
    g ∣ n ∧ g ≠ 1 ∧ rest < budget := by
  induction budget using Nat.strong_induction_on generalizing x y q r k with
  | _ budget ih =>
    rw [walk] at h
    dsimp only at h
    split at h
    · cases h
    · have hleft : budget - max 1 (min batchSize (r - k)) < budget := by omega
      split at h
      · split at h
        · cases h
        · split at h
          · obtain ⟨hdvd, hne, hlt⟩ := ih _ hleft h
            exact ⟨hdvd, hne, by omega⟩
          · obtain ⟨hdvd, hne, hlt⟩ := ih _ hleft h
            exact ⟨hdvd, hne, by omega⟩
      · next hg =>
        split at h
        · obtain ⟨hdvd, hne, hlt⟩ := retrace_spec h
          exact ⟨hdvd, hne, by omega⟩
        · cases h
          exact ⟨Nat.gcd_dvd_right _ _, hg, hleft⟩

theorem attempts_spec {n rounds budget : ℕ} {w w' : Words} {d : ℕ} (h : attempts n rounds budget w = (some d, w')) :
    d ∣ n ∧ d ≠ 1 ∧ d ≠ n := by
  induction rounds generalizing budget w with
  | zero => cases h
  | succ rounds ih =>
    rw [attempts] at h
    dsimp only at h
    split at h
    · cases h
    · split at h
      · cases h
      · next g left hstart =>
        split at h
        · exact ih h
        · next hg =>
          cases h
          obtain ⟨hdvd, hne, -⟩ := walk_spec hstart
          exact ⟨hdvd, hne, hg⟩

/-- As every walk spends some of the budget, the number of walks need not be bounded. -/
theorem attempts_congr {n rounds rounds' budget : ℕ} (h : budget ≤ rounds) (h' : budget ≤ rounds') (w : Words) :
    attempts n rounds budget w = attempts n rounds' budget w := by
  induction rounds generalizing rounds' budget w with
  | zero =>
    obtain rfl : budget = 0 := by omega
    cases rounds' with
    | zero => rfl
    | succ rounds' => rw [attempts, attempts, if_pos rfl]
  | succ rounds ih =>
    cases rounds' with
    | zero =>
      obtain rfl : budget = 0 := by omega
      rw [attempts, attempts, if_pos rfl]
    | succ rounds' =>
      rw [attempts, attempts]
      dsimp only
      split
      · rfl
      · split
        · rfl
        · next g left hstart =>
          have hlt := (walk_spec hstart).2.2
          rw [ih (by omega) (show left ≤ rounds' by omega)]

theorem later_attempts (n rounds budget : ℕ) (w : Words) : w.Later (attempts n rounds budget w).2 := by
  induction rounds generalizing budget w with
  | zero => exact .refl w
  | succ rounds ih =>
    have hdraws := (w.later_below (n - 1)).trans ((w.below (n - 1)).2.later_below n)
    rw [attempts]
    dsimp only
    split
    · exact .refl w
    · split
      · exact hdraws
      · split
        · exact hdraws.trans (ih _ _)
        · exact hdraws

/-- A divisor is found that is neither one nor the number itself. -/
theorem divisor?_spec {n budget : ℕ} {w w' : Words} {d : ℕ} (hn : 2 < n) (h : divisor? n budget w = (some d, w')) :
    d ∣ n ∧ 1 < d ∧ d < n := by
  rw [divisor?] at h
  split at h
  · cases h
    omega
  · obtain ⟨hdvd, h1, hne⟩ := attempts_spec h
    have hle := Nat.le_of_dvd (by omega) hdvd
    have hpos := Nat.pos_of_dvd_of_pos hdvd (by omega)
    omega

theorem later_divisor? (n budget : ℕ) (w : Words) : w.Later (divisor? n budget w).2 := by
  rw [divisor?]
  split
  · exact .refl w
  · exact later_attempts _ _ _ _

end Rho

end CliffordT

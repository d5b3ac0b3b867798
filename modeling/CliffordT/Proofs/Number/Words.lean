import CliffordT.Number.Words
import Mathlib.Data.Nat.Notation

/-!
Taking random words moves a stream forward and changes nothing else about it.
-/

namespace CliffordT

namespace Words

/-- The stream `v` is what is left of `w` when some words more have been taken. -/
def Later (w v : Words) : Prop := v.word = w.word ∧ w.taken ≤ v.taken

theorem Later.refl (w : Words) : w.Later w := ⟨rfl, Nat.le_refl _⟩

theorem Later.trans {u v w : Words} (huv : u.Later v) (hvw : v.Later w) : u.Later w :=
  ⟨hvw.1.trans huv.1, Nat.le_trans huv.2 hvw.2⟩

theorem later_take (count acc : ℕ) (w : Words) : w.Later (w.take count acc).2 := by
  induction count generalizing acc w with
  | zero => exact .refl w
  | succ count ih =>
    have hnext : w.Later w.next.2 := ⟨rfl, Nat.le_succ _⟩
    exact hnext.trans (ih _ _)

theorem later_below (n : ℕ) (w : Words) : w.Later (w.below n).2 := later_take (bitLength n / 64 + 2) 0 w

theorem below_lt {n : ℕ} (hn : 0 < n) (w : Words) : (w.below n).1 < n := Nat.mod_lt _ hn

end Words

end CliffordT

/-!
Types in which exponents are stored.

A machine keeps the exponent of a denominator in a word, and a sum of exponents that is too large for a word wraps. Natural numbers
store every exponent. Fractions are written over either, so the arithmetic is defined once, and for words it is that of natural
numbers as long as what is stored fits.
-/

namespace CliffordT

/-- A type in which exponents are stored. It stores at least the numbers of a word, and a number that is too large is stored as a
smaller one of the same parity. -/
class Exponent (E : Type) where
  /-- The number that is stored. -/
  load : E → Nat
  /-- What is stored for a number. -/
  store : Nat → E
  store_load (e : E) : store (load e) = e
  load_store_le (n : Nat) : load (store n) ≤ n
  load_store_mod_two (n : Nat) : load (store n) % 2 = n % 2
  load_store_of_le (n : Nat) (e : E) : n ≤ load e → load (store n) = n
  load_store_of_lt (n : Nat) : n < UInt32.size → load (store n) = n

/-- Every exponent is stored as it is. -/
instance : Exponent Nat where
  load n := n
  store n := n
  store_load _ := rfl
  load_store_le _ := Nat.le_refl _
  load_store_mod_two _ := rfl
  load_store_of_le _ _ _ := rfl
  load_store_of_lt _ _ := rfl

/-- Exponents are stored in words of 32 bits, which wrap. -/
instance : Exponent UInt32 where
  load := UInt32.toNat
  store := UInt32.ofNat
  store_load _ := UInt32.ofNat_toNat
  load_store_le n := by
    rw [UInt32.toNat_ofNat']
    exact Nat.mod_le _ _
  load_store_mod_two n := by
    rw [UInt32.toNat_ofNat']
    omega
  load_store_of_le n e h := by
    rw [UInt32.toNat_ofNat']
    exact Nat.mod_eq_of_lt (Nat.lt_of_le_of_lt h e.toNat_lt)
  load_store_of_lt n h := by
    rw [UInt32.toNat_ofNat']
    exact Nat.mod_eq_of_lt h

/-- A word stands for the number that it holds. -/
instance numberOfWord : Coe UInt32 Nat := ⟨UInt32.toNat⟩

/-- A number is written as the word that is left of it. -/
instance wordOfNumber : Coe Nat UInt32 := ⟨UInt32.ofNat⟩

namespace Exponent

@[simp] theorem load_nat (n : Nat) : load n = n := rfl

@[simp] theorem store_nat (n : Nat) : (store n : Nat) = n := rfl

variable {E : Type} [Exponent E]

/-- Zero, as it is stored. -/
def zero : E := store 0

/-- The exponent that is one larger, as it is stored. -/
def next (e : E) : E := store (load e + 1)

@[simp] theorem zero_nat : (zero : Nat) = 0 := rfl

@[simp] theorem next_nat (n : Nat) : next n = n + 1 := rfl

/-- Whether a number is stored as it is. -/
class Stores (E : Type) [Exponent E] (n : Nat) : Prop where
  load_store : load (store n : E) = n

export Stores (load_store)

attribute [simp] load_store

instance (n : Nat) : Stores Nat n := ⟨rfl⟩

instance (e : E) : Stores E (load e) := ⟨by rw [store_load]⟩

/-- What is smaller than a number that is stored as it is, is stored as it is too. -/
theorem Stores.of_le {m n : Nat} (_ : Stores E n) (h : m ≤ n) : Stores E m :=
  ⟨load_store_of_le m (store n : E) (by rwa [load_store])⟩

/-- Every type of exponents stores the numbers of a word. -/
theorem Stores.of_lt {n : Nat} (h : n < 4294967296) : Stores E n := ⟨load_store_of_lt n h⟩

/-- What can be doubled can be raised by one. -/
theorem Stores.succ_of_double {n : Nat} (h : Stores E (2 * n)) : Stores E (n + 1) := by
  rcases Nat.eq_zero_or_pos n with rfl | hpos
  · exact .of_lt (by decide)
  · exact h.of_le (by omega)

instance : Stores E 0 := .of_lt (by decide)

instance : Stores E 1 := .of_lt (by decide)

instance (m n : Nat) [Stores E m] [Stores E n] : Stores E (max m n) := by
  rcases Nat.le_total m n with h | h
  · rwa [Nat.max_eq_right h]
  · rwa [Nat.max_eq_left h]

@[simp] theorem load_zero : load (zero : E) = 0 := load_store

@[simp] theorem load_next (e : E) [Stores E (load e + 1)] : load (next e) = load e + 1 := load_store

@[simp] theorem load_next_zero : load (next zero : E) = 1 := by
  rw [next, load_zero]
  exact load_store_of_lt 1 (by decide)

theorem load_injective : Function.Injective (load : E → Nat) := fun e f h => by
  rw [← store_load e, h, store_load]

/-- Words of 32 bits store the numbers up to their size. -/
theorem stores_word_iff (n : Nat) : Stores UInt32 n ↔ n < 4294967296 := by
  constructor
  · intro h
    rw [← h.load_store]
    exact UInt32.toNat_lt _
  · exact Stores.of_lt

end Exponent

end CliffordT

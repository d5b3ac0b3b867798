import CliffordT.Number.Bits
import CliffordT.Number.ChaCha

/-!
Streams of random words.

Every randomised procedure of this library takes a stream and hands back what is left of it. The results do not
depend on how the words are made, so a stream is any function from positions to words; the one used in
practice belongs to a cipher whose key is made from a seed.
-/

namespace CliffordT

/-- An endless stream of 64-bit words and the number of words already taken. -/
structure Words where
  /-- The word at each position. -/
  word : Nat → UInt64
  /-- How many words have been taken. -/
  taken : Nat

namespace Words

/-- The next word and the rest of the stream. -/
def next (w : Words) : UInt64 × Words := (w.word w.taken, { w with taken := w.taken + 1 })

/-- The stream that belongs to a seed. -/
def ofSeed (seed : UInt64) : Words :=
  let key := ChaCha.keyOfSeed seed
  ⟨ChaCha.word key, 0⟩

/-- The number written by the next `count` words, most significant word first. -/
def take (count : Nat) (acc : Nat) (w : Words) : Nat × Words :=
  match count with
  | 0 => (acc, w)
  | count + 1 =>
    let (word, w) := w.next
    take count (acc * twoPow 64 + word.toNat) w

/-- A number below `n`, nearly uniform: enough words to cover `n`, reduced modulo `n`. -/
def below (n : Nat) (w : Words) : Nat × Words :=
  let (x, w) := w.take (bitLength n / 64 + 2) 0
  (x % n, w)

end Words

end CliffordT

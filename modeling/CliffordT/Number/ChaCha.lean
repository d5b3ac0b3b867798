/-!
Random words from the stream of ChaCha with twelve rounds.

A block of sixteen 32-bit words is made from four constants, a key of eight words, and a position of four words. It is
mixed by rounds that act on its columns and diagonals as a square of side four, and added to what it was. The key
is drawn from a 64-bit seed by a permuted congruential generator.
-/

namespace CliffordT.ChaCha

/-- Sixteen words, row by row. -/
abbrev Block := Vector UInt32 16

/-- The word with its bits turned to the left. -/
def rotateLeft (x n : UInt32) : UInt32 := (x <<< n) ||| (x >>> (32 - n))

/-- Adds the word at `b` to the word at `a`, and mixes the sum into the word at `d`, which is then turned. -/
def mix (a b d : Fin 16) (n : UInt32) (s : Block) : Block :=
  let s := s.set a (s[a] + s[b])
  s.set d (rotateLeft (s[d] ^^^ s[a]) n)

/-- The quarter round on four words. -/
def quarterRound (a b c d : Fin 16) (s : Block) : Block :=
  mix c d b 7 (mix a b d 8 (mix c d b 12 (mix a b d 16 s)))

/-- A quarter round on every column and then on every diagonal. -/
def doubleRound (s : Block) : Block :=
  let s := quarterRound 3 7 11 15 (quarterRound 2 6 10 14 (quarterRound 1 5 9 13 (quarterRound 0 4 8 12 s)))
  quarterRound 3 4 9 14 (quarterRound 2 7 8 13 (quarterRound 1 6 11 12 (quarterRound 0 5 10 15 s)))

/-- The words of a key. -/
abbrev Key := Vector UInt32 8

/-- The block before mixing at a position of the stream. -/
def start (key : Key) (position : UInt64) : Block :=
  #v[0x61707865, 0x3320646e, 0x79622d32, 0x6b206574,
    key[0], key[1], key[2], key[3], key[4], key[5], key[6], key[7],
    position.toUInt32, (position >>> 32).toUInt32, 0, 0]

/-- The block at a position of the stream. -/
def block (key : Key) (position : UInt64) : Block :=
  let s := start key position
  s.zipWith (· + ·) (Nat.repeat doubleRound 6 s)

/-- The step of the generator that makes keys. -/
def advance (state : UInt64) : UInt64 := state * 6364136223846793005 + 11634580027462260723

/-- The word that the generator gives out in a state: some of the upper bits, turned by the uppermost ones. -/
def output (state : UInt64) : UInt32 :=
  let x := (((state >>> 18) ^^^ state) >>> 27).toUInt32
  let turn := (state >>> 59).toUInt32
  rotateLeft x ((32 - turn) % 32)

/-- The key that belongs to a seed. -/
def keyOfSeed (seed : UInt64) : Key := Vector.ofFn fun i => output (Nat.repeat advance (i.val + 1) seed)

/-- The 64-bit words in one block. -/
def wordsPerBlock : Nat := 8

/-- The 64-bit word at a place of the stream, the lower half standing first. -/
def word (key : Key) (place : Nat) : UInt64 :=
  let b := block key (UInt64.ofNat (place / wordsPerBlock))
  let i : Fin 8 := ⟨place % wordsPerBlock, Nat.mod_lt _ (by decide)⟩
  let low : Fin 16 := ⟨2 * i.val, by omega⟩
  let high : Fin 16 := ⟨2 * i.val + 1, by omega⟩
  b[low].toUInt64 ||| (b[high].toUInt64 <<< 32)

end CliffordT.ChaCha

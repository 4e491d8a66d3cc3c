import Sortition.Engine.Basic

/-!
# The ChaCha engine

The stream cipher ChaCha with twelve rounds, used as an engine.  A key determines one endless stream
of 32-bit words, which comes in blocks of sixteen: a block is the key and the number of the block,
mixed by six double rounds, added to what was mixed.  An engine is a key and a position in its
stream, and every request takes words from there: one for 32 bits, two for 64 bits, the lower half
first, and as many as there are beginnings of four for bytes.

A seed is stretched to a key by a congruential counter whose states are scrambled.
-/

set_option autoImplicit false

namespace Sortition

/-- A key and a position in its stream of words. -/
structure ChaCha where
  key : Vector UInt32 8
  position : Nat := 0
deriving DecidableEq

namespace ChaCha

/-- The sixteen words that are mixed. -/
abbrev Block : Type := Vector UInt32 16

/-- Rotate a word to the left. -/
def rotateLeft (x n : UInt32) : UInt32 := (x <<< n) ||| (x >>> (32 - n))

/-- Mix four words of a block. -/
def quarterRound (s : Block) (a b c d : Fin 16) : Block :=
  let s := s.set a (s[a] + s[b])
  let s := s.set d (rotateLeft (s[d] ^^^ s[a]) 16)
  let s := s.set c (s[c] + s[d])
  let s := s.set b (rotateLeft (s[b] ^^^ s[c]) 12)
  let s := s.set a (s[a] + s[b])
  let s := s.set d (rotateLeft (s[d] ^^^ s[a]) 8)
  let s := s.set c (s[c] + s[d])
  s.set b (rotateLeft (s[b] ^^^ s[c]) 7)

/-- Mix the columns of a block, then its diagonals. -/
def doubleRound (s : Block) : Block :=
  let s := quarterRound s 0 4 8 12
  let s := quarterRound s 1 5 9 13
  let s := quarterRound s 2 6 10 14
  let s := quarterRound s 3 7 11 15
  let s := quarterRound s 0 5 10 15
  let s := quarterRound s 1 6 11 12
  let s := quarterRound s 2 7 8 13
  quarterRound s 3 4 9 14

/-- What is mixed for a block: four constants, the key, the number of the block in two words, and
two zeros. -/
def start (key : Vector UInt32 8) (number : Nat) : Block :=
  #v[0x61707865, 0x3320646e, 0x79622d32, 0x6b206574,
    key[0], key[1], key[2], key[3], key[4], key[5], key[6], key[7],
    number.toUInt32, (number / UInt32.size).toUInt32, 0, 0]

/-- Mix a block by a number of double rounds. -/
def mix : Nat → Block → Block
  | 0, s => s
  | n + 1, s => mix n (doubleRound s)

/-- A block of the stream of a key. -/
def block (key : Vector UInt32 8) (number : Nat) : Block :=
  let s := start key number
  Vector.zipWith (· + ·) (mix 6 s) s

/-- The word at a position of the stream of a key. -/
def wordAt (key : Vector UInt32 8) (position : Nat) : UInt32 :=
  have : position % 16 < 16 := Nat.mod_lt _ (by decide)
  (block key (position / 16))[position % 16]

/-- The next word. -/
def next : Draw ChaCha UInt32 := .ofRun fun c =>
  (.ok (wordAt c.key c.position), { c with position := c.position + 1 })

/-- Two words as one, the lower half first. -/
def joinWords (low high : UInt32) : UInt64 := low.toUInt64 ||| (high.toUInt64 <<< 32)

instance : Engine ChaCha where
  nextU32 := next
  nextU64 := do
    let low ← next
    let high ← next
    pure (joinWords low high)
  fill n := do
    let words ← drawMany next ((n + 3) / 4)
    pure ((words.flatMap fun w => lowBytes 4 w.toNat).take n)

/-- The counter that stretches a seed advances. -/
def stretch (state : UInt64) : UInt64 := state * 6364136223846793005 + 11634580027462260723

/-- The word of a state of that counter: scrambled, then rotated by its highest bits. -/
def stretchedWord (state : UInt64) : UInt32 :=
  let x := (((state >>> 18) ^^^ state) >>> 27).toUInt32
  let r := (state >>> 59).toUInt32
  (x >>> r) ||| (x <<< ((32 - r) % 32))

/-- The key of a seed. -/
def keyOfSeed (seed : UInt64) : Vector UInt32 8 :=
  Vector.ofFn fun i => stretchedWord (Nat.repeat stretch (i.val + 1) seed)

instance : Seedable ChaCha where
  ofSeed seed := { key := keyOfSeed seed }

end ChaCha

end Sortition

import Sortition.Draw

/-!
# Engines

An engine produces machine words: 32 bits, 64 bits, or a run of bytes.  Every engine is a source of
draws (`Sortition.Engine.Source`).  A `Seedable` engine can be started from a seed, and the seed
alone determines all its words.

The engines that are here make their words one by one, 64 bits each; `Sortition.Engine.ChaCha` makes
them in blocks.

* `Words` are words that were fixed beforehand.
* `SplitMix` is a counter, every state of which is scrambled into a word.
-/

set_option autoImplicit false

namespace Sortition

/-- A producer of machine words. -/
class Engine (σ : Type) where
  /-- The next 32 bits. -/
  nextU32 : Draw σ UInt32
  /-- The next 64 bits. -/
  nextU64 : Draw σ UInt64
  /-- The next `n` bytes. -/
  fill (n : Nat) : Draw σ (List UInt8)

/-- An engine that is started from a seed. -/
class Seedable (ε : Type) extends Engine ε where
  ofSeed : UInt64 → ε

variable {σ α : Type}

/-- Make a draw `n` times. -/
def drawMany (d : Draw σ α) : Nat → Draw σ (List α)
  | 0 => pure []
  | n + 1 => do
    let a ← d
    let rest ← drawMany d n
    pure (a :: rest)

/-- The lowest `n` bytes of a number, the lowest first. -/
def lowBytes : (n : Nat) → Nat → List UInt8
  | 0, _ => []
  | n + 1, x => x.toUInt8 :: lowBytes n (x / 256)

/-- `n` bytes from 64-bit words, each word lowest byte first; what is left of the last word is
lost. -/
def fillByWords (next : Draw σ UInt64) (n : Nat) : Draw σ (List UInt8) := do
  let words ← drawMany next ((n + 7) / 8)
  pure ((words.flatMap fun w => lowBytes 8 w.toNat).take n)

/-! ## Given words

A request for 32 bits takes the lower half of the next word.  The engine stops when there is no word
left. -/

/-- The words that are left, and how many have been used. -/
structure Words where
  words : List UInt64
  used : Nat := 0

namespace Words

/-- The next word. -/
def next : Draw Words UInt64 := .ofRun fun w =>
  match w.words with
  | [] => (.error .wordsExhausted, w)
  | word :: rest => (.ok word, ⟨rest, w.used + 1⟩)

instance : Engine Words where
  nextU32 := UInt64.toUInt32 <$> next
  nextU64 := next
  fill := fillByWords next

end Words

/-! ## SplitMix

The counter advances by a fixed odd number.  A request for 32 bits takes the upper half of the next
word. -/

/-- The state of the counter. -/
structure SplitMix where
  state : UInt64

namespace SplitMix

/-- The word of a state. -/
def scramble (state : UInt64) : UInt64 :=
  let z := (state ^^^ (state >>> 30)) * 0xbf58476d1ce4e5b9
  let z := (z ^^^ (z >>> 27)) * 0x94d049bb133111eb
  z ^^^ (z >>> 31)

/-- Advance the counter; its word is that of the new state. -/
def next : Draw SplitMix UInt64 := .ofRun fun s =>
  let state := s.state + 0x9e3779b97f4a7c15
  (.ok (scramble state), ⟨state⟩)

instance : Engine SplitMix where
  nextU32 := (fun w : UInt64 => (w >>> 32).toUInt32) <$> next
  nextU64 := next
  fill := fillByWords next

instance : Seedable SplitMix where
  ofSeed seed := ⟨seed⟩

end SplitMix

end Sortition

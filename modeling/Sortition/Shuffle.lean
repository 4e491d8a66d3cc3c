import Sortition.Engine.Source

/-!
# Shuffling

A slice is shuffled from the front: position `i` changes places with a position that is drawn among
the first `i + 1`.  Which positions are drawn and what is done with them are apart:
`shuffleIndices n` is the list of the positions, and `exchangeAll` exchanges.

* A slice of at most one element draws nothing.
* As long as there are fewer elements than the largest number of 32 bits, positions are drawn
  several at a time.  One number below the product of consecutive bounds is a mixed-radix numeral,
  whose digits are one position for each bound.  `IndexCutter` cuts the digits off, lowest first,
  and draws a new numeral when the old one has none left.  The product is the longest that fits a
  32-bit word.
* In a longer slice every position is drawn by itself (`drawIndices`).
-/

set_option autoImplicit false

namespace Sortition

/-- The longest product `n * (n + 1) * …` of consecutive numbers that does not exceed `room`, and
the number of its factors. -/
def longestProduct (room n : Nat) : Nat × Nat :=
  if n ≤ room then
    let rest := longestProduct (room / n) (n + 1)
    (n * rest.1, rest.2 + 1)
  else (1, 0)
termination_by room + 1 - n
decreasing_by
  have := Nat.div_le_self room n
  omega

/-- The state of cutting positions out of drawn numerals. -/
structure IndexCutter where
  /-- How many positions have been cut. -/
  cut : Nat
  /-- What is left of the numeral. -/
  numeral : Nat
  /-- How many digits the numeral has left. -/
  digits : Nat

namespace IndexCutter

variable {σ : Type} [Engine σ]

/-- Before anything is cut.  The first position has only itself to change places with, and the
numeral zero has that one digit. -/
def start : IndexCutter := ⟨0, 0, 1⟩

/-- The largest number of 32 bits. -/
def room : Nat := UInt32.size - 1

/-- A cutter with a digit left, for the bound after those that have been cut. -/
def refill (s : IndexCutter) : Draw σ IndexCutter :=
  if s.digits = 0 then do
    let (bound, factors) := longestProduct room (s.cut + 1)
    let numeral ← Engine.uniform 0 (bound - 1)
    pure ⟨s.cut, numeral, factors⟩
  else pure s

/-- Cut off the lowest digit; the last digit of a numeral is all that is left of it. -/
def cutDigit (s : IndexCutter) : Nat × IndexCutter :=
  let bound := s.cut + 1
  if s.digits ≤ 1 then (s.numeral, ⟨bound, s.numeral, 0⟩)
  else (s.numeral % bound, ⟨bound, s.numeral / bound, s.digits - 1⟩)

/-- The next `n` positions. -/
def takeIndices : Nat → IndexCutter → Draw σ (List Nat)
  | 0, _ => pure []
  | n + 1, s => do
    let (index, s) := (← s.refill).cutDigit
    let rest ← takeIndices n s
    pure (index :: rest)

end IndexCutter

variable {α σ : Type} [Engine σ]

/-- The next `n` positions from `i` on, each from words of its own.  The width of the words is that
of the bound, which is not drawn. -/
def drawIndices (i : Nat) : Nat → Draw σ (List Nat)
  | 0 => pure []
  | n + 1 => do
    let width := WordWidth.fitting (i + 1)
    let index ← Engine.below width ((i + 1) % width.count)
    let rest ← drawIndices (i + 1) n
    pure (index :: rest)

/-- The position that each position of a slice changes places with, from the front. -/
def shuffleIndices (n : Nat) : Draw σ (List Nat) :=
  if n ≤ 1 then pure []
  else if n < IndexCutter.room then IndexCutter.start.takeIndices n
  else drawIndices 0 n

/-- Exchange the positions from `i` on with the given ones, in turn. -/
def exchangeAll (items : Array α) (i : Nat) : List Nat → Except Fault (Array α)
  | [] => .ok items
  | j :: rest =>
    if h : i < items.size ∧ j < items.size then
      exchangeAll (items.swap i j h.1 h.2) (i + 1) rest
    else .error (.outsideSlice j items.size)

/-- Put the elements of an array into a random order. -/
def shuffle (items : Array α) : Draw σ (Array α) := do
  let indices ← shuffleIndices items.size
  match exchangeAll items 0 indices with
  | .ok shuffled => pure shuffled
  | .error fault => throw fault

end Sortition

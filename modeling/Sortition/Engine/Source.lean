import Sortition.Engine.Basic

/-!
# Engines as sources

The two draws that a source is asked for, made from the words of an engine: a number in a range, and
an index by weight.
-/

set_option autoImplicit false

namespace Sortition

/-! ## A number in a range

To draw from `range` numbers, a word of `b` bits is multiplied by `range`, and the upper `b` bits of
the product are the answer.  That is a little biased.  Where the lower bits are so large that more
bits of the word might have carried into the answer, a second word supplies these bits, and the
carry is added.  A range of all `2 ^ b` numbers needs no arithmetic.

Words of 32 bits are used if the upper end of the range fits one, words of 64 bits otherwise. -/

/-- The width of the words that a draw is made from. -/
inductive WordWidth
  | bits32
  | bits64
deriving DecidableEq, Repr

namespace WordWidth

/-- How many words there are of a width. -/
def count : WordWidth → Nat
  | bits32 => UInt32.size
  | bits64 => UInt64.size

/-- The width for numbers up to `hi`. -/
def fitting (hi : Nat) : WordWidth := if hi < UInt32.size then bits32 else bits64

end WordWidth

namespace Engine

variable {σ : Type} [Engine σ]

/-- A word of a given width, as a number. -/
def word : WordWidth → Draw σ Nat
  | .bits32 => UInt32.toNat <$> nextU32
  | .bits64 => UInt64.toNat <$> nextU64

/-- The carry out of the lower bits of a product, `more` being the answer that a second word would
give by itself. -/
def carry (count low more : Nat) : Nat := if count ≤ low + more then 1 else 0

/-- A number below `range`, from words of which there are `count`; if `range` is zero, any word. -/
def below (width : WordWidth) (range : Nat) : Draw σ Nat := do
  let count := width.count
  let first ← word width
  if range = 0 then return first
  let high := first * range / count
  let low := first * range % count
  if count - range < low then
    let second ← word width
    return high + carry count low (second * range / count)
  else
    return high

/-- A number between `lo` and `hi`, both included. -/
def uniform (lo hi : Nat) : Draw σ Nat := do
  if hi < lo then throw (.emptyRange lo hi)
  let width := WordWidth.fitting hi
  let offset ← below width ((hi - lo + 1) % width.count)
  return lo + offset

end Engine

/-! ## An index by weight

The weights are added up from the left, and the running totals divide the interval from zero to the
last of them.  A point of the interval is drawn, and the answer is the number of running totals,
other than the last, that do not lie beyond it.  An index whose weight is zero has an empty part of
the interval.

`WeightTable.ofWeights` is the part that does not depend on the draw, and all the reasons why a list
of weights is refused. -/

/-- The running totals of weights, and the last of them apart. -/
structure WeightTable where
  thresholds : List Float
  total : Float

namespace WeightTable

/-- The totals reached before each of the weights, and the total after the last. -/
def accumulate (total : Float) : List Float → WeightTable
  | [] => ⟨[], total⟩
  | w :: ws =>
    let rest := accumulate (total + w) ws
    ⟨total :: rest.thresholds, rest.total⟩

/-- A weight is neither negative nor undefined. -/
def usable (w : Float) : Bool := 0.0 ≤ w

/-- The table of a list of weights, unless the list describes no distribution. -/
def ofWeights : List Float → Except Fault WeightTable
  | [] => .error (.badWeights .empty)
  | w :: ws =>
    if !(w :: ws).all usable then .error (.badWeights .negative)
    else
      let table := accumulate w ws
      if table.total == 0.0 then .error (.badWeights .allZero)
      else if table.total.isInf then .error .infiniteTotal
      else .ok table

/-- The number of leading thresholds that do not lie beyond a point. -/
def indexOf (t : WeightTable) (point : Float) : Nat :=
  (t.thresholds.takeWhile (· ≤ point)).length

end WeightTable

/-- The number in the unit interval that the upper 52 bits of a word stand for; it is below one. -/
def unitOfWord (w : UInt64) : Float :=
  Float.ofBits ((0x3ff0000000000000 : UInt64) ||| (w >>> 12)) - 1.0

namespace Engine

variable {σ : Type} [Engine σ]

/-- An index, as likely as its weight. -/
def weighted (weights : List Float) : Draw σ Nat :=
  match WeightTable.ofWeights weights with
  | .error fault => throw fault
  | .ok table => do
    let w ← nextU64
    return table.indexOf (unitOfWord w * table.total + 0.0)

instance : Source σ where
  uniform := uniform
  weighted := weighted

end Engine

end Sortition

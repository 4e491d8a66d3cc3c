/-!
# What can stop a draw

Every operation of this library that draws either returns or stops with a `Fault`.  A fault is a
*cause*: it says which condition was broken and carries the numbers that broke it, and nothing of
how it is worded.  The wording is in one place, `Fault.message`.

Two faults share a wording, because both are a counter of `Sortition.Trim` taken below zero; they
are kept apart here, since only one of them can arise.
-/

set_option autoImplicit false

namespace Sortition

/-- The two ways to pick an element by its position. -/
inductive PickKind
  /-- Every position is equally likely. -/
  | uniform
  /-- A position is as likely as its weight says. -/
  | weighted
deriving DecidableEq, Repr

/-- The name a pick is announced by. -/
def PickKind.label : PickKind → String
  | .uniform => "select_uniform"
  | .weighted => "select_weighted"

/-- Why a list of weights describes no distribution. -/
inductive WeightFlaw
  /-- There is no weight at all. -/
  | empty
  /-- Some weight is negative or not a number. -/
  | negative
  /-- The weights add up to zero. -/
  | allZero
deriving DecidableEq, Repr

/-- The wording of a flaw. -/
def WeightFlaw.message : WeightFlaw → String
  | .empty => "Weights sequence is empty/too long/unordered"
  | .negative => "A weight is negative, too large or not a valid number"
  | .allZero => "Not enough weights > zero"

/-- The causes that stop an operation. -/
inductive Fault
  /-- A pick was asked of a sequence without elements. -/
  | emptySequence (kind : PickKind)
  /-- The weights given are not as many as the elements. -/
  | weightCount (weights elements : Nat)
  /-- The source answered a position behind the last element. -/
  | pastEnd (kind : PickKind) (index : Nat)
  /-- The source answered a rank that is not below the number of matching elements. -/
  | rankPastMatches (rank found : Nat)
  /-- A number was asked from a range whose lower end is above its upper end. -/
  | emptyRange (lo hi : Nat)
  /-- The weights describe no distribution. -/
  | badWeights (flaw : WeightFlaw)
  /-- The weights add up to infinity. -/
  | infiniteTotal
  /-- Trimming would keep one element more than it may. -/
  | keptTooMany
  /-- Trimming was shown one element more than there are. -/
  | shownTooMany
  /-- A shuffle was told to exchange with a position outside the slice. -/
  | outsideSlice (index size : Nat)
  /-- A script has no answer left. -/
  | scriptExhausted
  /-- A list of words has no word left. -/
  | wordsExhausted
deriving DecidableEq, Repr

/-- The wording of a fault. -/
def Fault.message : Fault → String
  | .emptySequence kind => kind.label ++ ": sequence must be non-empty"
  | .weightCount weights elements =>
      "assertion `left == right` failed: select_weighted: expected one weight per element\n" ++
        "  left: " ++ toString weights ++ "\n right: " ++ toString elements
  | .pastEnd kind index => kind.label ++ ": iterator ended before index " ++ toString index
  | .rankPastMatches rank found =>
      "swap_remove index (is " ++ toString rank ++ ") should be < len (is " ++ toString found ++ ")"
  | .emptyRange lo hi => "urand: empty range [" ++ toString lo ++ ", " ++ toString hi ++ "]"
  | .badWeights flaw => "urand_weighted: invalid weights (" ++ flaw.message ++ ")"
  | .infiniteTotal => "called `Result::unwrap()` on an `Err` value: NonFinite"
  | .keptTooMany => "attempt to subtract with overflow"
  | .shownTooMany => "attempt to subtract with overflow"
  | .outsideSlice index size =>
      "index out of bounds: the len is " ++ toString size ++ " but the index is " ++ toString index
  | .scriptExhausted => "script exhausted"
  | .wordsExhausted => "words exhausted"

end Sortition

import Sortition.Draw
import Sortition.Erase.Basic

/-!
# Picking one element

Four ways to pick an element of a sequence:

* `pickUniform`, every position being equally likely;
* `pickIf`, every element that a predicate accepts being equally likely;
* `pickWeighted`, a position being as likely as its weight in a list says;
* `pickWeightedBy`, an element being as likely as a function of it says.

The sequence must not be empty, except for `pickIf`, where no match is an answer and draws nothing.
Predicates and weight functions are asked about every element once, in order, before anything is
drawn.  A source that answers a position behind the last element stops the pick.
-/

set_option autoImplicit false

namespace Sortition

variable {C α σ : Type} {m : Type → Type} [Sequence C α] [Source σ]

/-- The element at a position the source has drawn. -/
def elementAt (kind : PickKind) (c : C) (i : Nat) : Draw σ α :=
  match Sequence.get? c i with
  | some a => pure a
  | none => throw (.pastEnd kind i)

/-- Pick an element, every position being equally likely. -/
def pickUniform (c : C) : Draw σ α := do
  if Sequence.size c = 0 then throw (.emptySequence .uniform)
  let i ← Source.uniform 0 (Sequence.size c - 1)
  elementAt .uniform c i

/-- Take the item at a position out of an array: the last item changes places with it, so that it
can be taken off the end.  There is none behind the last. -/
def takeOut (items : Array α) (i : Nat) : Option (α × Array α) :=
  if h : i < items.size then
    let moved := items.swap i (items.size - 1) h (by omega)
    moved.back?.map fun item => (item, moved.pop)
  else none

/-- What is taken out is the item at the position, and not the one that moves there. -/
theorem map_fst_takeOut (items : Array α) (i : Nat) :
    (takeOut items i).map Prod.fst = items[i]? := by
  rw [takeOut]
  split
  · next h =>
    rw [Option.map_map, Array.getElem?_eq_getElem h]
    simp [Array.back?, Array.getElem?_swap, Function.comp_def]
  · next h => simp [Nat.le_of_not_lt h]

/-- Pick an element that the predicate accepts, every one of them being equally likely; `none` if
there is none.  The one that is drawn is taken out of those that were found. -/
def pickIf [Monad m] (p : α → m Bool) (c : C) : DrawT σ m (Option α) := do
  let found ← DrawT.ask (siftM p (Sequence.toList c))
  if found.isEmpty then return none
  let rank ← DrawT.ofDraw (Source.uniform 0 (found.length - 1))
  match takeOut found.toArray rank with
  | some (a, _) => return some a
  | none => throw (.rankPastMatches rank found.length)

/-- Pick an element by a list of weights, one for each position. -/
def pickWeighted (weights : List Float) (c : C) : Draw σ α := do
  if Sequence.size c = 0 then throw (.emptySequence .weighted)
  if weights.length ≠ Sequence.size c then
    throw (.weightCount weights.length (Sequence.size c))
  let i ← Source.weighted weights
  elementAt .weighted c i

/-- The sum of weights, added up from the left. -/
def sumWeights (weights : List Float) : Float := weights.foldl (· + ·) 0.0

/-- The weights themselves, or equal weights if they do not add up to more than zero.  A sum that is
not a number leaves the weights as they are. -/
def weightsOrEqual (weights : List Float) : List Float :=
  if sumWeights weights ≤ 0.0 then List.replicate weights.length 1.0 else weights

/-- Pick an element by the weight that a function gives it. -/
def pickWeightedBy [Monad m] (weigh : α → m Float) (c : C) : DrawT σ m α := do
  let weights ← DrawT.ask ((Sequence.toList c).mapM weigh)
  DrawT.ofDraw (pickWeighted (weightsOrEqual weights) c)

end Sortition

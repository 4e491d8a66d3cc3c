import Sortition.Draw
import Sortition.Erase.Basic

/-!
# Trimming to a random selection

`trim k c` leaves `k` elements of `c`, chosen at random, in their order.  It is one pass of
`eraseIfM`: a `Quota` counts how many elements may still be kept and how many, the current one
included, are still to be seen, and an element is kept if a number drawn between one and the latter
does not exceed the former.  Every choice of `k` elements is then equally likely.  A container that
is within the limit is left alone, and nothing is drawn for it.

A source that answers out of range can take a counter below zero, which is a fault; with answers in
range neither counter can get there.

`trimIf p k c` first removes what `p` does not accept and then trims to `k`, where a `k` of zero
means that there is no limit.
-/

set_option autoImplicit false

namespace Sortition

/-- How many elements may still be kept, and how many are still to be seen. -/
structure Quota where
  keep : Nat
  left : Nat
deriving DecidableEq, Repr

namespace Quota

variable {σ : Type}

/-- Count off one element, by the number drawn for it: whether it is kept, and the quota for the
elements behind it. -/
def countOff (q : Quota) (drawn : Nat) : Except Fault (Bool × Quota) :=
  match decide (drawn ≤ q.keep), q.keep, q.left with
  | true, 0, _ => .error .keptTooMany
  | _, _, 0 => .error .shownTooMany
  | true, keep + 1, left + 1 => .ok (true, ⟨keep, left⟩)
  | false, keep, left + 1 => .ok (false, ⟨keep, left⟩)

/-- Draw for the next element; the answer is whether it is to be removed. -/
def dropNext [Source σ] : StateT Quota (Draw σ) Bool := fun q => do
  let drawn ← Source.uniform 1 q.left
  match q.countOff drawn with
  | .error fault => throw fault
  | .ok (kept, rest) => pure (!kept, rest)

end Quota

variable {C α σ : Type} {m : Type → Type} [Erasable C α] [Source σ]

/-- Leave at most `k` elements, chosen at random. -/
def trim (k : Nat) (c : C) : Draw σ C :=
  if Sequence.size c ≤ k then pure c
  else (Erasable.eraseIfM (fun _ => Quota.dropNext) c).run' ⟨k, Sequence.size c⟩

/-- Leave the elements that the predicate accepts, and of those at most `k`, chosen at random, if
`k` is not zero. -/
def trimIf [Monad m] (p : α → m Bool) (k : Nat) (c : C) : DrawT σ m C := do
  let accepted ← DrawT.ask (Erasable.eraseIfM (refuse p) c)
  if k = 0 then pure accepted else DrawT.ofDraw (trim k accepted)

end Sortition

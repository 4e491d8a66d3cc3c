import Sortition.Sequence

/-!
# Conditional removal

`eraseIfM p c` removes the elements of `c` for which `p` answers `true` and keeps the others in
their order.  Every container fixes its own strategy: storage with positions swaps the survivors
down and cuts off the tail (`Sortition.Erase.Compact`), linked storage drops elements where they
stand (`Sortition.Erase.Unlink`), and a map is built anew from the entries that are left.

What removal means is `siftM keep items`: it asks `keep` about every item once, from the first to
the last, and returns the items it was told to keep, in their order.  The question is asked in a
monad, so that it may have a state, draw, or stop.  `LawfulErasable` is the promise that nothing
else of a strategy can be observed.
-/

set_option autoImplicit false

namespace Sortition

/-! ## Sifting a list

`retainM` is `siftM` with the proof that the answer is a sublist, for containers whose elements have
to stay sorted. -/

section

variable {α : Type} {m : Type → Type}

/-- The items for which the answer is to keep them, each asked about once, in order. -/
def siftM [Monad m] (keep : α → m Bool) : List α → m (List α)
  | [] => pure []
  | item :: items => do
    let kept ← keep item
    let rest ← siftM keep items
    pure (if kept then item :: rest else rest)

/-- The sifted items as a sublist of all items. -/
def retainM [Monad m] (keep : α → m Bool) :
    (items : List α) → m {kept : List α // kept.Sublist items}
  | [] => pure ⟨[], .slnil⟩
  | item :: items => do
    let kept ← keep item
    let ⟨rest, h⟩ ← retainM keep items
    pure (if kept then ⟨item :: rest, h.cons_cons item⟩ else ⟨rest, h.cons item⟩)

/-- The opposite of an answer. -/
def refuse [Functor m] (p : α → m Bool) (item : α) : m Bool := not <$> p item

/-- Forgetting the proof, retaining is sifting. -/
theorem val_retainM [Monad m] [LawfulMonad m] (keep : α → m Bool) (items : List α) :
    Subtype.val <$> retainM keep items = siftM keep items := by
  induction items with
  | nil => simp [retainM, siftM]
  | cons item items ih =>
    rw [retainM, siftM, map_bind, ← ih]
    refine bind_congr fun kept => ?_
    cases kept <;> simp

end

/-! ## Containers -/

/-- Sequences from which elements can be removed by a condition. -/
class Erasable (C : Type) (α : outParam Type) extends Sequence C α where
  /-- Remove the elements for which the answer is `true`. -/
  eraseIfM {m : Type → Type} [Monad m] (p : α → m Bool) (c : C) : m C

/-- Removal asks about every element once, in order, and keeps what is not to be removed. -/
class LawfulErasable (C : Type) (α : outParam Type) [Erasable C α] : Prop
    extends LawfulSequence C α where
  toList_eraseIfM : ∀ {m : Type → Type} [Monad m] [LawfulMonad m] (p : α → m Bool) (c : C),
    Sequence.toList <$> Erasable.eraseIfM p c = siftM (refuse p) (Sequence.toList c)

/-- Remove the elements that satisfy a condition without a state. -/
def Erasable.eraseIf {C α : Type} [Erasable C α] (p : α → Bool) (c : C) : C :=
  Id.run (Erasable.eraseIfM (fun a => pure (p a)) c)

end Sortition

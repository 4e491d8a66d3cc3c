/-!
# Sequences

What can be picked from: a finite collection whose elements stand in an order and can be counted.
`LawfulSequence` says that counting and reaching an element agree with the list of all of them.
`size` and `get?` need not walk the elements, so that a very long range of numbers is a sequence
too: of a `Span`, both are arithmetic.
-/

set_option autoImplicit false

namespace Sortition

/-- A finite collection whose elements stand in an order. -/
class Sequence (C : Type) (α : outParam Type) where
  /-- The elements, in their order. -/
  toList : C → List α
  /-- How many elements there are. -/
  size : C → Nat
  /-- The element at a position, counted from zero. -/
  get? : C → Nat → Option α

/-- The number of elements and the element at a position are those of the list of elements. -/
class LawfulSequence (C : Type) (α : outParam Type) [Sequence C α] : Prop where
  size_eq : ∀ c : C, Sequence.size c = (Sequence.toList c).length
  get?_eq : ∀ (c : C) (i : Nat), Sequence.get? c i = (Sequence.toList c)[i]?

/-- There is no element. -/
def Sequence.isEmpty {C α : Type} [Sequence C α] (c : C) : Bool := Sequence.size c == 0

instance {α : Type} : Sequence (List α) α where
  toList items := items
  size items := items.length
  get? items i := items[i]?

instance {α : Type} : LawfulSequence (List α) α where
  size_eq _ := rfl
  get?_eq _ _ := rfl

instance {α : Type} : Sequence (Array α) α where
  toList items := items.toList
  size items := items.size
  get? items i := items[i]?

instance {α : Type} : LawfulSequence (Array α) α where
  size_eq _ := rfl
  get?_eq _ _ := by simp [Sequence.get?, Sequence.toList]

/-! ## Spans of numbers -/

/-- The numbers `lo, lo + 1, …, hi - 1`; none if `hi ≤ lo`. -/
structure Span where
  lo : Nat
  hi : Nat
deriving DecidableEq, Repr

namespace Span

/-- How many numbers there are. -/
def size (s : Span) : Nat := s.hi - s.lo

/-- The numbers, ascending. -/
def toList (s : Span) : List Nat := List.range' s.lo s.size

/-- The number at a position. -/
def get? (s : Span) (i : Nat) : Option Nat := if i < s.size then some (s.lo + i) else none

instance : Sequence Span Nat := ⟨toList, size, get?⟩

instance : LawfulSequence Span Nat where
  size_eq s := by simp [Sequence.size, Sequence.toList, toList]
  get?_eq s i := by
    simp only [Sequence.get?, Sequence.toList, toList, get?]
    split <;> simp [*]

end Span

end Sortition

import Sortition.Container.Deque
import Sortition.Container.Sorted
import Sortition.Container.Unordered
import Sortition.Value

/-!
# The containers of a session

A `Store` is one of the containers of values, and itself a sequence of values from which elements
can be erased: each operation is that of the container it is.  The entries of a map are shown as
lists of a key and a value.  A `Container` is a store, or a span of numbers, which can only be
picked from.
-/

set_option autoImplicit false

namespace Sortition

/-- Containers of values whose elements can be erased. -/
inductive Store
  | array (items : Array Value)
  | deque (items : Deque Value)
  | list (items : List Value)
  | sortedSet (items : SortedSet Value)
  | unorderedSet (items : UnorderedSet Value)
  | sortedMap (entries : SortedMap Value Value)
  | unorderedMap (entries : UnorderedMap Value Value)
  | traced (items : Traced (Array Value))

/-- The ways to erase that a caller can ask for. -/
inductive Removal
  /-- The container's own. -/
  | own
  /-- Moving the survivors to the front. -/
  | compacting
  /-- Taking elements out where they stand. -/
  | unlinking
deriving DecidableEq, Repr

namespace Store

/-- The elements in the order in which they are iterated. -/
def toList : Store → List Value
  | array items => items.toList
  | deque items => items.toList
  | list items => items
  | sortedSet items => items.items
  | unorderedSet items => items.toList
  | sortedMap entries => entries.entries.map Value.pair
  | unorderedMap entries => entries.toList.map Value.pair
  | traced items => items.storage.toList

/-- How many elements there are. -/
def size : Store → Nat
  | array items => Sequence.size items
  | deque items => Sequence.size items
  | list items => Sequence.size items
  | sortedSet items => Sequence.size items
  | unorderedSet items => Sequence.size items
  | sortedMap entries => Sequence.size entries
  | unorderedMap entries => Sequence.size entries
  | traced items => Sequence.size items

/-- The element at a position. -/
def get? : Store → Nat → Option Value
  | array items, i => Sequence.get? items i
  | deque items, i => Sequence.get? items i
  | list items, i => Sequence.get? items i
  | sortedSet items, i => Sequence.get? items i
  | unorderedSet items, i => Sequence.get? items i
  | sortedMap entries, i => (Sequence.get? entries i).map Value.pair
  | unorderedMap entries, i => (Sequence.get? entries i).map Value.pair
  | traced items, i => Sequence.get? items i

section

variable {m : Type → Type} [Monad m]

/-- Erase in the container's own way. -/
def eraseIfM (p : Value → m Bool) : Store → m Store
  | array items => array <$> Erasable.eraseIfM p items
  | deque items => deque <$> Erasable.eraseIfM p items
  | list items => list <$> Erasable.eraseIfM p items
  | sortedSet items => sortedSet <$> Erasable.eraseIfM p items
  | unorderedSet items => unorderedSet <$> Erasable.eraseIfM p items
  | sortedMap entries => sortedMap <$> Erasable.eraseIfM (fun e => p (Value.pair e)) entries
  | unorderedMap entries => unorderedMap <$> Erasable.eraseIfM (fun e => p (Value.pair e)) entries
  | traced items => traced <$> Erasable.eraseIfM p items

/-- Erase by compaction, where elements have positions; `none` elsewhere. -/
def compactM? (p : Value → m Bool) : Store → Option (m Store)
  | array items => some (array <$> compactM p items)
  | deque items => some (deque <$> compactM p items)
  | traced items => some (traced <$> compactM p items)
  | _ => none

/-- Erase where elements stand; `none` for storage that can only be compacted. -/
def unlinkM? (p : Value → m Bool) : Store → Option (m Store)
  | array items => some (array <$> dropM p items)
  | deque items => some (deque <$> dropM p items)
  | traced _ => none
  | other => some (other.eraseIfM p)

/-- Erase in a given way, if the container can be erased from in that way. -/
def removeM? (how : Removal) (p : Value → m Bool) (s : Store) : Option (m Store) :=
  match how with
  | .own => some (s.eraseIfM p)
  | .compacting => s.compactM? p
  | .unlinking => s.unlinkM? p

end

instance : Erasable Store Value where
  toList := toList
  size := size
  get? := get?
  eraseIfM := eraseIfM

/-- Nothing can be said of the order in which the elements are iterated. -/
def isUnordered : Store → Bool
  | unorderedSet _ => true
  | unorderedMap _ => true
  | _ => false

/-- Values of the container as they are shown: sorted, if it has no order of its own. -/
def inShownOrder (s : Store) (values : List Value) : List Value :=
  if s.isUnordered then values.mergeSort fun a b => (compare a b).isLE else values

/-- Add a value: at the end, or where the container has its place; in a map, under a key, which
other containers have no use for. -/
def add? (key : Option Value) (v : Value) : Store → Option Store
  | array items => some (array (items.push v))
  | deque items => some (deque (items.pushBack v))
  | list items => some (list (items ++ [v]))
  | sortedSet items => some (sortedSet (items.insert v))
  | unorderedSet items => some (unorderedSet (items.insert v))
  | sortedMap entries => key.map fun k => sortedMap (entries.insert k v)
  | unorderedMap entries => key.map fun k => unorderedMap (entries.insert k v)
  | traced items => some (traced { items with storage := items.storage.push v })

/-- Add an element at the front. -/
def pushFront? (v : Value) : Store → Option Store
  | deque items => some (deque (items.pushFront v))
  | list items => some (list (v :: items))
  | _ => none

/-- Take the first element off, if there is one. -/
def popFront? : Store → Option (Option Value × Store)
  | deque items =>
    match items.popFront? with
    | some (v, rest) => some (some v, deque rest)
    | none => some (none, deque items)
  | list items => some (items.head?, list items.tail)
  | _ => none

/-- Move the first `n` elements to the end. -/
def rotateLeft? (n : Nat) : Store → Option Store
  | array items => some (array (items.drop n ++ items.take n))
  | deque items => some (deque (items.rotateLeft n))
  | _ => none

/-- The elements as a slice to be shuffled, and how to take them back. -/
def asSlice? : Store → Option (Array Value × (Array Value → Store))
  | array items => some (items, array)
  | deque items => some (items.toArray, fun shuffled => deque (.ofArray shuffled))
  | _ => none

/-- The changes a traced store has noted, and the store without them. -/
def takeTrace : Store → Option (List Mutation) × Store
  | traced items => (some items.mutations, traced items.forget)
  | s => (none, s)

end Store

/-- What a session can pick from. -/
inductive Container
  | store (s : Store)
  | span (s : Span)

namespace Container

instance : Sequence Container Value where
  toList
    | store s => s.toList
    | span s => s.toList.map fun n : Nat => .int n
  size
    | store s => s.size
    | span s => s.size
  get?
    | store s, i => s.get? i
    | span s, i => (s.get? i).map fun n : Nat => .int n

/-- Some element equals a value. -/
def contains : Container → Value → Bool
  | store s, v => s.toList.any (· == v)
  | span s, .int i => s.lo ≤ i && i < s.hi
  | span _, _ => false

/-- Nothing can be said of the order in which the elements are iterated. -/
def isUnordered : Container → Bool
  | store s => s.isUnordered
  | span _ => false

/-- Values of the container as they are shown. -/
def inShownOrder : Container → List Value → List Value
  | store s, values => s.inShownOrder values
  | span _, values => values

end Container

end Sortition

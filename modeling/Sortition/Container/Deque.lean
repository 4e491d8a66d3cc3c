import Sortition.Erase.Unlink

/-!
# Double-ended queues

A queue in two halves: `back` holds the later elements in order, `front` the earlier ones in
reverse, so that both ends of the queue are ends of an array.  Which half holds an element cannot be
observed: every operation is described by what it does to `Deque.toList`.
-/

set_option autoImplicit false

namespace Sortition

/-- A queue that grows and shrinks at both ends. -/
structure Deque (α : Type) where
  /-- The earlier elements, the first of them last. -/
  front : Array α
  /-- The later elements. -/
  back : Array α

namespace Deque

variable {α : Type}

/-- The elements in order. -/
def toList (d : Deque α) : List α := d.front.toList.reverse ++ d.back.toList

/-- The elements in order, as an array. -/
def toArray (d : Deque α) : Array α := d.front.reverse ++ d.back

/-- The queue of the elements of an array. -/
def ofArray (items : Array α) : Deque α := ⟨#[], items⟩

/-- How many elements there are. -/
def size (d : Deque α) : Nat := d.front.size + d.back.size

/-- The element at a position, counted from the front. -/
def item (d : Deque α) (i : Nat) (h : i < d.size) : α :=
  if hf : i < d.front.size then d.front[d.front.size - 1 - i]
  else
    have : i - d.front.size < d.back.size := by unfold size at h; omega
    d.back[i - d.front.size]

/-- The element at a position, if there is one. -/
def get? (d : Deque α) (i : Nat) : Option α := if h : i < d.size then some (d.item i h) else none

/-- Replace the element at a position. -/
def set (d : Deque α) (i : Nat) (a : α) (h : i < d.size) : Deque α :=
  if hf : i < d.front.size then ⟨d.front.set (d.front.size - 1 - i) a (by omega), d.back⟩
  else ⟨d.front, d.back.set (i - d.front.size) a (by unfold size at h; omega)⟩

theorem size_set (d : Deque α) (i : Nat) (a : α) (h : i < d.size) :
    (d.set i a h).size = d.size := by
  rw [set]
  split <;> simp [size]

/-- Exchange the elements at two positions. -/
def swap (d : Deque α) (i j : Nat) (hi : i < d.size) (hj : j < d.size) : Deque α :=
  (d.set i (d.item j hj) hi).set j (d.item i hi) (by rw [size_set]; exact hj)

/-- Drop everything from position `n` on. -/
def truncate (d : Deque α) (n : Nat) : Deque α :=
  if n ≤ d.front.size then ⟨d.front.extract (d.front.size - n), #[]⟩
  else ⟨d.front, d.back.take (n - d.front.size)⟩

/-- Take out the element at a position. -/
def dropAt (d : Deque α) (i : Nat) (h : i < d.size) : Deque α :=
  if hf : i < d.front.size then ⟨d.front.eraseIdx (d.front.size - 1 - i) (by omega), d.back⟩
  else ⟨d.front, d.back.eraseIdx (i - d.front.size) (by unfold size at h; omega)⟩

theorem size_dropAt (d : Deque α) (i : Nat) (h : i < d.size) :
    (d.dropAt i h).size + 1 = d.size := by
  have h' : i < d.front.size + d.back.size := h
  rw [dropAt]
  split <;> simp only [size, Array.size_eraseIdx] <;> omega

/-- Add an element at the end. -/
def pushBack (d : Deque α) (a : α) : Deque α := ⟨d.front, d.back.push a⟩

/-- Add an element at the front. -/
def pushFront (d : Deque α) (a : α) : Deque α := ⟨d.front.push a, d.back⟩

/-- Take the first element off; when the front half has run out, the back half becomes it. -/
def popFront? (d : Deque α) : Option (α × Deque α) :=
  let front := if d.front.isEmpty then d.back.reverse else d.front
  let back := if d.front.isEmpty then #[] else d.back
  front.back?.map fun a => (a, ⟨front.pop, back⟩)

/-- Move the first `n` elements to the end. -/
def rotateLeft (d : Deque α) (n : Nat) : Deque α :=
  ofArray (d.toArray.drop n ++ d.toArray.take n)

instance : Sequence (Deque α) α := ⟨toList, size, get?⟩

instance : Swappable (Deque α) α where
  item := item
  swap := swap
  truncate := truncate
  size_swap d i j hi hj := by
    show (d.swap i j hi hj).size = d.size
    rw [swap, size_set, size_set]

instance : Droppable (Deque α) α where
  dropAt := dropAt
  size_dropAt := size_dropAt

instance : Erasable (Deque α) α where
  eraseIfM p d := compactM p d

/-! ## The operations on the list of elements -/

theorem size_eq_length (d : Deque α) : d.size = d.toList.length := by
  simp [size, toList]

theorem some_item (d : Deque α) (i : Nat) (h : i < d.size) : some (d.item i h) = d.toList[i]? := by
  have h' : i < d.front.size + d.back.size := h
  rw [item, toList]
  split
  · rw [List.getElem?_append_left (by simp; omega), List.getElem?_reverse (by simp; omega)]
    simp
  · rw [List.getElem?_append_right (by simp; omega)]
    simp

theorem set_reverse (l : List α) (i : Nat) (a : α) (h : i < l.length) :
    l.reverse.set i a = (l.set (l.length - 1 - i) a).reverse := by
  refine List.ext_getElem (by simp) fun j hj _ => ?_
  have hj : j < l.length := by simpa using hj
  have hiff : l.length - 1 - i = l.length - 1 - j ↔ i = j := by omega
  rw [List.getElem_set, List.getElem_reverse, List.getElem_reverse, List.getElem_set]
  simp only [List.length_set, hiff]

theorem eraseIdx_reverse (l : List α) (i : Nat) (h : i < l.length) :
    l.reverse.eraseIdx i = (l.eraseIdx (l.length - 1 - i)).reverse := by
  rw [List.eraseIdx_eq_take_drop_succ, List.eraseIdx_eq_take_drop_succ, List.reverse_append,
    List.take_reverse, List.drop_reverse]
  congr 3 <;> omega

theorem toList_set (d : Deque α) (i : Nat) (a : α) (h : i < d.size) :
    (d.set i a h).toList = d.toList.set i a := by
  have h' : i < d.front.size + d.back.size := h
  rw [set, toList, toList]
  split
  · rw [List.set_append_left _ _ (by simp; omega), set_reverse _ _ _ (by simpa)]
    simp
  · rw [List.set_append_right _ _ (by simp; omega)]
    simp

theorem toList_truncate (d : Deque α) (n : Nat) : (d.truncate n).toList = d.toList.take n := by
  rw [truncate, toList, toList]
  split
  · rw [List.take_append_of_le_length (by simp; omega), List.take_reverse]
    simp [List.take_of_length_le]
  · rw [List.take_append, List.take_of_length_le (by simp; omega)]
    simp

theorem toList_dropAt (d : Deque α) (i : Nat) (h : i < d.size) :
    (d.dropAt i h).toList = d.toList.eraseIdx i := by
  have h' : i < d.front.size + d.back.size := h
  rw [dropAt, toList, toList]
  split
  · rw [List.eraseIdx_append_of_lt_length (by simp; omega), eraseIdx_reverse _ _ (by simpa)]
    simp
  · rw [List.eraseIdx_append_of_length_le (by simp; omega)]
    simp

instance : LawfulSwappable (Deque α) α where
  size_eq := size_eq_length
  get?_eq d i := by
    show d.get? i = d.toList[i]?
    rw [get?]
    split
    · exact some_item d i _
    · rw [List.getElem?_eq_none (by rw [← size_eq_length]; omega)]
  item_eq := some_item
  toList_swap d i j hi hj := by
    show (d.swap i j hi hj).toList = _
    rw [swap, toList_set, toList_set]
    rfl
  toList_truncate := toList_truncate

instance : LawfulDroppable (Deque α) α where
  toList_dropAt := toList_dropAt

instance : LawfulErasable (Deque α) α where
  toList_eraseIfM p d := toList_compactM p d

end Deque

end Sortition

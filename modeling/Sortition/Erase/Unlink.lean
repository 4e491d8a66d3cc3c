import Sortition.Erase.Compact

/-!
# Removal where an element stands

Two strategies without exchanges.  `dropM` walks the positions of indexed storage; an element to be
removed is taken out where it stands, and the next one moves into its position, so that only a
survivor advances the position.  `relinkM` takes a linked list apart from the front and links the
survivors to a new one.
-/

set_option autoImplicit false

namespace Sortition

/-- Indexed storage from which the element at a position can be taken out. -/
class Droppable (C : Type) (α : outParam Type) extends Indexed C α where
  /-- Take out the element at a position; those behind it move up. -/
  dropAt (c : C) (i : Nat) (h : i < size c) : C
  size_dropAt : ∀ (c : C) (i : Nat) (h : i < size c), size (dropAt c i h) + 1 = size c

/-- Taking out an element acts on the list of elements. -/
class LawfulDroppable (C : Type) (α : outParam Type) [Droppable C α] : Prop
    extends LawfulIndexed C α where
  toList_dropAt : ∀ (c : C) (i : Nat) (h : i < Sequence.size c),
    Sequence.toList (Droppable.dropAt c i h) = (Sequence.toList c).eraseIdx i

section

variable {C α : Type} {m : Type → Type} [Monad m]

/-- Walk the last `left` elements, from position `i` on, and take out those to be removed. -/
def dropFromM [Droppable C α] (p : α → m Bool) : (left i : Nat) → (c : C) →
    i + left = Sequence.size c → m C
  | 0, _, c, _ => pure c
  | left + 1, i, c, h => do
    if ← p (Indexed.item c i (by omega)) then
      dropFromM p left i (Droppable.dropAt c i (by omega))
        (by have := Droppable.size_dropAt c i (by omega); omega)
    else
      dropFromM p left (i + 1) c (by omega)

/-- Remove elements from indexed storage one by one. -/
def dropM [Droppable C α] (p : α → m Bool) (c : C) : m C :=
  dropFromM p (Sequence.size c) 0 c (Nat.zero_add _)

/-- Take `rest` apart from the front; `linked` holds the survivors so far, the last one first. -/
def relinkOntoM (p : α → m Bool) (linked : List α) : (rest : List α) → m (List α)
  | [] => pure linked.reverse
  | item :: rest => do
    if ← p item then relinkOntoM p linked rest else relinkOntoM p (item :: linked) rest

/-- Remove elements of a linked list by linking the survivors to a new one. -/
def relinkM (p : α → m Bool) (items : List α) : m (List α) := relinkOntoM p [] items

end

/-! ## What is left

Both strategies leave what sifting leaves. -/

section

variable {C α : Type} {m : Type → Type} [Monad m] [LawfulMonad m]

/-- Walking the rest of the storage sifts it, and leaves what lies before it. -/
theorem toList_dropFromM [Droppable C α] [LawfulDroppable C α] (p : α → m Bool) :
    ∀ (left i : Nat) (c : C) (hsize : i + left = Sequence.size c) (kept rest : List α),
      Sequence.toList c = kept ++ rest → kept.length = i →
      Sequence.toList <$> dropFromM p left i c hsize = (kept ++ ·) <$> siftM (refuse p) rest
  | 0, i, c, hsize, kept, rest, hc, hk => by
    have hlen := LawfulSequence.size_eq c
    rw [hc, List.length_append] at hlen
    obtain rfl : rest = [] := List.eq_nil_of_length_eq_zero (by omega)
    simp [dropFromM, siftM, hc]
  | left + 1, i, c, hsize, kept, [], hc, hk => by
    have hlen := LawfulSequence.size_eq c
    rw [hc, List.length_append, List.length_nil] at hlen
    omega
  | left + 1, i, c, hsize, kept, x :: rest, hc, hk => by
    have hx : Indexed.item c i (by omega) = x := item_of_toList_eq hc hk _
    rw [dropFromM, siftM, hx]
    simp only [map_bind, refuse, bind_map_left, bind_pure_comp, Functor.map_map]
    refine bind_congr fun goes => ?_
    cases goes with
    | true =>
      simp only [if_true, Bool.not_true, Bool.false_eq_true, if_false]
      refine toList_dropFromM p left i _ _ kept rest ?_ hk
      rw [LawfulDroppable.toList_dropAt, hc, ← hk]
      simp [List.eraseIdx_append_of_length_le]
    | false =>
      have happ : (fun l => kept ++ x :: l) = fun l => (kept ++ [x]) ++ l := by simp
      simp only [Bool.false_eq_true, if_false, Bool.not_false, if_true, happ]
      exact toList_dropFromM p left (i + 1) c _ (kept ++ [x]) rest (by simp [hc]) (by simp; omega)

theorem toList_dropM [Droppable C α] [LawfulDroppable C α] (p : α → m Bool) (c : C) :
    Sequence.toList <$> dropM p c = siftM (refuse p) (Sequence.toList c) := by
  rw [dropM, toList_dropFromM p _ 0 c _ [] (Sequence.toList c) rfl rfl]
  simp

theorem relinkOntoM_eq (p : α → m Bool) (linked rest : List α) :
    relinkOntoM p linked rest = (linked.reverse ++ ·) <$> siftM (refuse p) rest := by
  induction rest generalizing linked with
  | nil => simp [relinkOntoM, siftM]
  | cons item rest ih =>
    rw [relinkOntoM, siftM]
    simp only [map_bind, refuse, bind_map_left, bind_pure_comp, Functor.map_map]
    refine bind_congr fun goes => ?_
    cases goes <;> simp [ih]

theorem relinkM_eq (p : α → m Bool) (items : List α) :
    relinkM p items = siftM (refuse p) items := by
  simp [relinkM, relinkOntoM_eq]

end

instance {α : Type} : Droppable (Array α) α where
  dropAt items i h := items.eraseIdx i h
  size_dropAt items i h := by
    show (items.eraseIdx i h).size + 1 = items.size
    have : i < items.size := h
    rw [Array.size_eraseIdx]; omega

instance {α : Type} : LawfulDroppable (Array α) α where
  toList_dropAt items i h := by
    simp [Droppable.dropAt, Sequence.toList]

instance {α : Type} : Erasable (List α) α where
  eraseIfM p items := relinkM p items

instance {α : Type} : LawfulErasable (List α) α where
  toList_eraseIfM p items := by
    show (fun kept => kept) <$> relinkM p items = _
    rw [id_map', relinkM_eq]
    rfl

end Sortition

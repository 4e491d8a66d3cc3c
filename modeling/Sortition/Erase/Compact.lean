import Sortition.Erase.Basic

/-!
# Removal by compaction

Storage whose elements are addressed by position and can be exchanged needs no other memory to
remove elements: one position reads the elements from the front, another marks where the next
survivor belongs, a survivor that is not yet there changes places with what is, and at the end
everything behind the last survivor is cut off.

`settleM` is the pass, `compactM` the pass and the cut.  All positions are within bounds by the
types of the operations; the one law that needs is that an exchange keeps the number of elements,
and it is a field of `Swappable`.  `LawfulSwappable` says that the operations act as those of lists.
-/

set_option autoImplicit false

namespace Sortition

/-- Sequences whose elements can be reached by position. -/
class Indexed (C : Type) (α : outParam Type) extends Sequence C α where
  /-- The element at a position. -/
  item (c : C) (i : Nat) (h : i < size c) : α

/-- Indexed storage whose elements can be exchanged, and whose tail can be cut off. -/
class Swappable (C : Type) (α : outParam Type) extends Indexed C α where
  /-- Exchange the elements at two positions. -/
  swap (c : C) (i j : Nat) (hi : i < size c) (hj : j < size c) : C
  /-- Drop everything from position `n` on. -/
  truncate (c : C) (n : Nat) : C
  size_swap : ∀ (c : C) (i j : Nat) (hi : i < size c) (hj : j < size c),
    size (swap c i j hi hj) = size c

/-- The element at a position is that of the list of elements. -/
class LawfulIndexed (C : Type) (α : outParam Type) [Indexed C α] : Prop
    extends LawfulSequence C α where
  item_eq : ∀ (c : C) (i : Nat) (h : i < Sequence.size c),
    some (Indexed.item c i h) = (Sequence.toList c)[i]?

/-- Exchanging and cutting off act on the list of elements. -/
class LawfulSwappable (C : Type) (α : outParam Type) [Swappable C α] : Prop
    extends LawfulIndexed C α where
  toList_swap : ∀ (c : C) (i j : Nat) (hi : i < Sequence.size c) (hj : j < Sequence.size c),
    Sequence.toList (Swappable.swap c i j hi hj) =
      ((Sequence.toList c).set i (Indexed.item c j hj)).set j (Indexed.item c i hi)
  toList_truncate : ∀ (c : C) (n : Nat),
    Sequence.toList (Swappable.truncate c n) = (Sequence.toList c).take n

theorem item_of_toList_eq {C α : Type} [Indexed C α] [LawfulIndexed C α] {c : C} {i : Nat}
    {before after : List α} {a : α} (hc : Sequence.toList c = before ++ a :: after)
    (hi : before.length = i) (h : i < Sequence.size c) : Indexed.item c i h = a := by
  have := LawfulIndexed.item_eq c i h
  rw [hc, List.getElem?_append_right (by omega)] at this
  simpa [← hi] using this

section

variable {C α : Type} {m : Type → Type} [Monad m] [Swappable C α]

/-- The pass of a compaction: `left` elements from position `read` on are still to be asked about,
and the next survivor belongs at position `write`.  The answer is the storage, survivors in front,
and their number. -/
def settleM (p : α → m Bool) : (left read write : Nat) → (c : C) →
    read + left = Sequence.size c → write ≤ read → m (C × Nat)
  | 0, _, write, c, _, _ => pure (c, write)
  | left + 1, read, write, c, hsize, hle => do
    if ← p (Indexed.item c read (by omega)) then
      settleM p left (read + 1) write c (by omega) (by omega)
    else if read = write then
      settleM p left (read + 1) (write + 1) c (by omega) (by omega)
    else
      settleM p left (read + 1) (write + 1)
        (Swappable.swap c read write (by omega) (by omega))
        (by rw [Swappable.size_swap]; omega) (by omega)

/-- Remove elements by moving the survivors to the front and cutting off the rest. -/
def compactM (p : α → m Bool) (c : C) : m C := do
  let (settled, survivors) ← settleM p (Sequence.size c) 0 0 c (Nat.zero_add _) (Nat.le_refl _)
  pure (Swappable.truncate settled survivors)

end

/-! ## What compaction leaves

At every moment of the pass the storage is in three parts: the survivors so far, elements that are
to go, and the elements that are still to be asked about, the last untouched. -/

section

variable {C α : Type} {m : Type → Type} [Swappable C α] [LawfulSwappable C α]

/-- A survivor changes places with the first of the elements that are to go. -/
theorem toList_swap_of_toList_eq {c : C} {read write : Nat} {kept gone rest : List α} {x y : α}
    (hc : Sequence.toList c = kept ++ y :: gone ++ x :: rest) (hk : kept.length = write)
    (hg : kept.length + (gone.length + 1) = read) (hr : read < Sequence.size c)
    (hw : write < Sequence.size c) :
    Sequence.toList (Swappable.swap c read write hr hw) =
      kept ++ [x] ++ (gone ++ [y]) ++ rest := by
  have hx : Indexed.item c read hr = x := item_of_toList_eq hc (by simp; omega) _
  have hy : Indexed.item c write hw = y :=
    item_of_toList_eq (by rw [hc, List.append_assoc]; rfl) hk _
  rw [LawfulSwappable.toList_swap, hc, hx, hy]
  subst hk hg
  simp

variable [Monad m] [LawfulMonad m]

/-- The pass of a compaction sifts what it has not asked about, and puts what is left behind the
survivors it had. -/
theorem toList_settleM (p : α → m Bool) :
    ∀ (left read write : Nat) (c : C) (hsize : read + left = Sequence.size c) (hle : write ≤ read)
      (kept gone rest : List α), Sequence.toList c = kept ++ gone ++ rest →
      kept.length = write → kept.length + gone.length = read →
      (fun r => (Sequence.toList r.1).take r.2) <$> settleM p left read write c hsize hle =
        (kept ++ ·) <$> siftM (refuse p) rest
  | 0, read, write, c, hsize, hle, kept, gone, rest, hc, hk, hg => by
    have hlen := LawfulSequence.size_eq c
    rw [hc, List.length_append, List.length_append] at hlen
    obtain rfl : rest = [] := List.eq_nil_of_length_eq_zero (by omega)
    simp [settleM, siftM, hc, ← hk]
  | left + 1, read, write, c, hsize, hle, kept, gone, [], hc, hk, hg => by
    have hlen := LawfulSequence.size_eq c
    rw [hc, List.length_append, List.length_append, List.length_nil] at hlen
    omega
  | left + 1, read, write, c, hsize, hle, kept, gone, x :: rest, hc, hk, hg => by
    have hx : Indexed.item c read (by omega) = x :=
      item_of_toList_eq hc (by rw [List.length_append]; exact hg) _
    rw [settleM, siftM, hx]
    simp only [map_bind, refuse, bind_map_left, bind_pure_comp, Functor.map_map]
    refine bind_congr fun goes => ?_
    cases goes with
    | true =>
      simp only [if_true, Bool.not_true, Bool.false_eq_true, if_false]
      exact toList_settleM p left (read + 1) write c _ _ kept (gone ++ [x]) rest
        (by simp [hc]) hk (by simp; omega)
    | false =>
      have happ : (fun l => kept ++ x :: l) = fun l => (kept ++ [x]) ++ l := by simp
      simp only [Bool.false_eq_true, if_false, Bool.not_false, if_true, happ]
      split
      · obtain rfl : gone = [] := List.eq_nil_of_length_eq_zero (by omega)
        exact toList_settleM p left (read + 1) (write + 1) c _ _ (kept ++ [x]) [] rest
          (by simp [hc]) (by simp; omega) (by simp; omega)
      · cases gone with
        | nil => rw [List.length_nil] at hg; omega
        | cons y gone =>
          exact toList_settleM p left (read + 1) (write + 1) _ _ _ (kept ++ [x]) (gone ++ [y]) rest
            (toList_swap_of_toList_eq hc hk hg _ _) (by simp; omega) (by simp at hg ⊢; omega)

/-- Compaction leaves what sifting leaves. -/
theorem toList_compactM (p : α → m Bool) (c : C) :
    Sequence.toList <$> compactM p c = siftM (refuse p) (Sequence.toList c) := by
  have h := toList_settleM p (Sequence.size c) 0 0 c (Nat.zero_add _) (Nat.le_refl _) [] []
    (Sequence.toList c) rfl rfl rfl
  simp only [List.nil_append, id_map'] at h
  rw [← h, compactM, map_bind, ← bind_pure_comp]
  simp only [map_pure, LawfulSwappable.toList_truncate]

end

instance {α : Type} : Swappable (Array α) α where
  item items i h := have : i < items.size := h; items[i]
  swap items i j hi hj := items.swap i j hi hj
  truncate items n := items.take n
  size_swap _ _ _ _ _ := Array.size_swap

instance {α : Type} : LawfulSwappable (Array α) α where
  item_eq items i h := by
    have : i < items.size := h
    simp [Indexed.item, Sequence.toList, this]
  toList_swap items i j hi hj := by
    simp [Swappable.swap, Indexed.item, Sequence.toList, Array.swap_def]
  toList_truncate items n := by
    simp [Swappable.truncate, Sequence.toList]

instance {α : Type} : Erasable (Array α) α where
  eraseIfM p items := compactM p items

instance {α : Type} : LawfulErasable (Array α) α where
  toList_eraseIfM p items := toList_compactM p items

/-! ## Storage that keeps a record of its changes

`Traced C` is swappable storage `C` that notes every exchange and every cut.  It erases by
compaction, so the record shows what compaction does to the storage of a caller. -/

/-- The ways in which compaction changes storage. -/
inductive Mutation
  /-- The elements at two positions were exchanged. -/
  | swap (i j : Nat)
  /-- Everything from a position on was dropped. -/
  | truncate (n : Nat)
deriving DecidableEq, Repr

/-- Storage together with the changes made to it, the latest first. -/
structure Traced (C : Type) where
  storage : C
  latestFirst : List Mutation := []

namespace Traced

variable {C α : Type}

/-- The changes made so far, in the order they were made. -/
def mutations (t : Traced C) : List Mutation := t.latestFirst.reverse

/-- The same storage with its record cleared. -/
def forget (t : Traced C) : Traced C := ⟨t.storage, []⟩

instance [Sequence C α] : Sequence (Traced C) α where
  toList t := Sequence.toList t.storage
  size t := Sequence.size t.storage
  get? t i := Sequence.get? t.storage i

instance [Sequence C α] [LawfulSequence C α] : LawfulSequence (Traced C) α where
  size_eq t := LawfulSequence.size_eq t.storage
  get?_eq t i := LawfulSequence.get?_eq t.storage i

instance [Swappable C α] : Swappable (Traced C) α where
  item t i h := Indexed.item t.storage i h
  swap t i j hi hj := ⟨Swappable.swap t.storage i j hi hj, .swap i j :: t.latestFirst⟩
  truncate t n := ⟨Swappable.truncate t.storage n, .truncate n :: t.latestFirst⟩
  size_swap t i j hi hj := Swappable.size_swap t.storage i j hi hj

instance [Swappable C α] [LawfulSwappable C α] : LawfulSwappable (Traced C) α where
  item_eq t i h := LawfulIndexed.item_eq t.storage i h
  toList_swap t i j hi hj := LawfulSwappable.toList_swap t.storage i j hi hj
  toList_truncate t n := LawfulSwappable.toList_truncate t.storage n

instance [Swappable C α] : Erasable (Traced C) α where
  eraseIfM p t := compactM p t

instance [Swappable C α] [LawfulSwappable C α] : LawfulErasable (Traced C) α where
  toList_eraseIfM p t := toList_compactM p t

end Traced

end Sortition

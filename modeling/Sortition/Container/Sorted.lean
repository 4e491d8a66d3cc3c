import Sortition.Erase.Basic

/-!
# Sorted maps and sorted sets

A `SortedMap` is the list of its entries in strictly ascending order of their keys, and a
`SortedSet` the list of its elements in strictly ascending order; the order is part of the type.
Keys that the order calls equal need not be identical.  Inserting under a key that is present
replaces its value and keeps the key that is there, and likewise a set keeps the element that it
has.

The two remove by a condition in different ways.  A map sees every entry as a pair, in key order,
and is built anew from the entries that are left.  A set drops elements where they stand; a sublist
of an ascending list is ascending.

`ofList` keeps, of several entries under one key, the last, key and value.
-/

set_option autoImplicit false

namespace Sortition

/-! ## Maps -/

section

variable {κ ν : Type} [Ord κ]

/-- The keys of the entries are strictly ascending. -/
def Ascending (entries : List (κ × ν)) : Prop :=
  entries.Pairwise fun a b => compare a.1 b.1 = .lt

/-- Put an entry into a list of entries.  If there is one under the same key, its key stays, and
`replace` says what becomes of its value. -/
def insertEntry (replace : Bool) (key : κ) (value : ν) : List (κ × ν) → List (κ × ν)
  | [] => [(key, value)]
  | entry :: entries =>
    match compare key entry.1 with
    | .lt => (key, value) :: entry :: entries
    | .eq => (entry.1, if replace then value else entry.2) :: entries
    | .gt => entry :: insertEntry replace key value entries

/-- The only key that may be new is the one that is put there. -/
theorem exists_key_of_mem_insertEntry {replace : Bool} {key : κ} {value : ν}
    {entries : List (κ × ν)} {e : κ × ν} (h : e ∈ insertEntry replace key value entries) :
    e.1 = key ∨ ∃ entry ∈ entries, entry.1 = e.1 := by
  induction entries with
  | nil => exact .inl (congrArg Prod.fst (List.mem_singleton.1 h))
  | cons entry entries ih =>
    rw [insertEntry] at h
    split at h
    · rcases List.mem_cons.1 h with rfl | h
      · exact .inl rfl
      · exact .inr ⟨e, h, rfl⟩
    · rcases List.mem_cons.1 h with rfl | h
      · exact .inr ⟨entry, List.mem_cons_self, rfl⟩
      · exact .inr ⟨e, List.mem_cons_of_mem _ h, rfl⟩
    · rcases List.mem_cons.1 h with rfl | h
      · exact .inr ⟨e, List.mem_cons_self, rfl⟩
      · obtain hkey | ⟨old, hmem, hkey⟩ := ih h
        · exact .inl hkey
        · exact .inr ⟨old, List.mem_cons_of_mem _ hmem, hkey⟩

theorem ascending_insertEntry [Std.TransOrd κ] {replace : Bool} {key : κ} {value : ν}
    {entries : List (κ × ν)} (h : Ascending entries) :
    Ascending (insertEntry replace key value entries) := by
  induction entries with
  | nil => simp [insertEntry, Ascending]
  | cons entry entries ih =>
    have hall : ∀ e ∈ entries, compare entry.1 e.1 = .lt := (List.pairwise_cons.1 h).1
    have htail : Ascending entries := (List.pairwise_cons.1 h).2
    rw [insertEntry]
    split
    · rename_i hlt
      refine List.pairwise_cons.2 ⟨fun e he => ?_, h⟩
      rcases List.mem_cons.1 he with rfl | he
      · exact hlt
      · exact Std.TransCmp.lt_trans hlt (hall e he)
    · exact List.pairwise_cons.2 ⟨hall, htail⟩
    · rename_i hgt
      refine List.pairwise_cons.2 ⟨fun e he => ?_, ih htail⟩
      obtain hkey | ⟨old, hmem, hkey⟩ := exists_key_of_mem_insertEntry he
      · rw [hkey]
        exact Std.OrientedCmp.lt_of_gt hgt
      · rw [← hkey]
        exact hall old hmem

/-- A map whose entries stand in ascending order of their keys. -/
structure SortedMap (κ : Type) [Ord κ] (ν : Type) where
  entries : List (κ × ν)
  ascending : Ascending entries

namespace SortedMap

/-- The map without entries. -/
def empty : SortedMap κ ν := ⟨[], .nil⟩

/-- Put a value under a key, in place of the one that is there; the key that is there stays. -/
def insert [Std.TransOrd κ] (m : SortedMap κ ν) (key : κ) (value : ν) : SortedMap κ ν :=
  ⟨insertEntry true key value m.entries, ascending_insertEntry m.ascending⟩

/-- Put a value under a key that is not yet there. -/
def insertIfNew [Std.TransOrd κ] (m : SortedMap κ ν) (key : κ) (value : ν) : SortedMap κ ν :=
  ⟨insertEntry false key value m.entries, ascending_insertEntry m.ascending⟩

/-- The map of a list of entries; of several under one key, the last. -/
def ofList [Std.TransOrd κ] (entries : List (κ × ν)) : SortedMap κ ν :=
  entries.foldr (fun entry m => m.insertIfNew entry.1 entry.2) empty

/-- The value under a key. -/
def find? (m : SortedMap κ ν) (key : κ) : Option ν :=
  (m.entries.find? fun entry => compare key entry.1 == .eq).map (·.2)

/-- Change the value under a key, if there is one. -/
def modify (m : SortedMap κ ν) (key : κ) (f : ν → ν) : SortedMap κ ν where
  entries := m.entries.map fun entry =>
    (entry.1, if compare key entry.1 == .eq then f entry.2 else entry.2)
  ascending := List.pairwise_map.2 (m.ascending.imp id)

/-- Remove the entry under a key, if there is one. -/
def erase (m : SortedMap κ ν) (key : κ) : SortedMap κ ν where
  entries := m.entries.filter fun entry => compare key entry.1 != .eq
  ascending := m.ascending.filter _

instance : Sequence (SortedMap κ ν) (κ × ν) where
  toList m := m.entries
  size m := m.entries.length
  get? m i := m.entries[i]?

instance : LawfulSequence (SortedMap κ ν) (κ × ν) where
  size_eq _ := rfl
  get?_eq _ _ := rfl

instance [Std.TransOrd κ] : Erasable (SortedMap κ ν) (κ × ν) where
  eraseIfM p m := ofList <$> siftM (refuse p) m.entries

/-- A map of entries that already stand in order has just these entries. -/
theorem entries_ofList [Std.TransOrd κ] {entries : List (κ × ν)} (h : Ascending entries) :
    (ofList entries).entries = entries := by
  induction entries with
  | nil => rfl
  | cons entry entries ih =>
    obtain ⟨hall, htail⟩ := List.pairwise_cons.1 h
    have hrest := ih htail
    show insertEntry false entry.1 entry.2 (ofList entries).entries = entry :: entries
    rw [hrest]
    cases entries with
    | nil => rfl
    | cons next entries => rw [insertEntry, hall next List.mem_cons_self]

instance [Std.TransOrd κ] : LawfulErasable (SortedMap κ ν) (κ × ν) where
  toList_eraseIfM p m := by
    show SortedMap.entries <$> ofList <$> siftM (refuse p) m.entries = siftM (refuse p) m.entries
    rw [← val_retainM, Functor.map_map, Functor.map_map]
    refine congrArg (· <$> _) (funext fun kept => ?_)
    exact entries_ofList (m.ascending.sublist kept.2)

end SortedMap

end

/-! ## Sets -/

section

variable {α : Type} [Ord α]

/-- A set whose elements stand in ascending order. -/
structure SortedSet (α : Type) [Ord α] where
  items : List α
  ascending : items.Pairwise fun a b => compare a b = .lt

namespace SortedSet

/-- The set of the keys of a map. -/
def ofMap (m : SortedMap α Unit) : SortedSet α :=
  ⟨m.entries.map (·.1), List.pairwise_map.2 (m.ascending.imp id)⟩

/-- The map from the elements of a set to nothing of interest. -/
def toMap (s : SortedSet α) : SortedMap α Unit :=
  ⟨s.items.map (·, ()), List.pairwise_map.2 (s.ascending.imp id)⟩

/-- The set of the items of a list. -/
def ofList [Std.TransOrd α] (items : List α) : SortedSet α :=
  ofMap (SortedMap.ofList (items.map (·, ())))

/-- Add an element, unless there is one that is equal to it. -/
def insert [Std.TransOrd α] (s : SortedSet α) (a : α) : SortedSet α :=
  ofMap (s.toMap.insert a ())

instance : Sequence (SortedSet α) α where
  toList s := s.items
  size s := s.items.length
  get? s i := s.items[i]?

instance : LawfulSequence (SortedSet α) α where
  size_eq _ := rfl
  get?_eq _ _ := rfl

instance : Erasable (SortedSet α) α where
  eraseIfM p s := do
    let ⟨kept, h⟩ ← retainM (refuse p) s.items
    pure ⟨kept, s.ascending.sublist h⟩

instance : LawfulErasable (SortedSet α) α where
  toList_eraseIfM p s := by
    rw [← val_retainM]
    simp [Erasable.eraseIfM, Sequence.toList]

end SortedSet

end

end Sortition

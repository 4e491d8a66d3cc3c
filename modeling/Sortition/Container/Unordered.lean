import Sortition.Erase.Basic

/-!
# Maps and sets without an order of their own

A container without an order of its own tells its elements apart by an equality, `Key.same`.  It is
an equivalence, and that is all: elements may be the same key and differ in what they show.

Such a container still has to show its elements in some order.  A `Layout` is such an order in the
most general sense: any function that rearranges lists.  It need not show the elements of a smaller
container in the order in which it showed those of the larger one.  Whatever is said of a map or a
set for every layout holds however its elements happen to be iterated, and after a change they may
be iterated in an entirely different order.
-/

set_option autoImplicit false

namespace Sortition

/-! ## Keys, and orders of iteration -/

/-- Types that keys can have. -/
class Key (κ : Type) where
  /-- Two keys are equal. -/
  same : κ → κ → Bool
  equivalence : Equivalence fun k l => same k l = true

/-- Where identity can be decided, it can serve as the equality of keys. -/
instance {κ : Type} [DecidableEq κ] : Key κ where
  same k l := decide (k = l)
  equivalence := by
    simp only [decide_eq_true_iff]
    exact ⟨Eq.refl, Eq.symm, Eq.trans⟩

namespace Key

variable {κ : Type} [Key κ]

theorem same_comm (k l : κ) : same k l = same l k :=
  Bool.eq_iff_iff.2 ⟨equivalence.symm, equivalence.symm⟩

theorem same_trans {k l n : κ} (hkl : same k l = true) (hln : same l n = true) :
    same k n = true :=
  equivalence.trans hkl hln

end Key

/-- An order of iteration: some rearrangement of every list. -/
structure Layout (α : Type) where
  arrange : List α → List α
  perm : ∀ items, (arrange items).Perm items

/-- The layout that shows elements in the order in which they came. -/
def Layout.asInserted {α : Type} : Layout α := ⟨id, fun _ => .refl _⟩

/-! ## Maps

`entries` is the bag of entries that the layout arranges.  No two of its keys are equal, and that is
part of the type.  Removal by a condition takes all entries out in the order of the layout and puts
the ones that are left into a new map. -/

section

variable {κ ν : Type} [Key κ]

/-- No two entries have equal keys. -/
def DistinctKeys (entries : List (κ × ν)) : Prop :=
  entries.Pairwise fun a b => Key.same a.1 b.1 = false

/-- A map with one entry for each key, iterated as its layout says. -/
structure UnorderedMap (κ : Type) [Key κ] (ν : Type) where
  entries : List (κ × ν)
  layout : Layout (κ × ν)
  distinct : DistinctKeys entries

namespace UnorderedMap

/-- The map without entries. -/
def empty (layout : Layout (κ × ν)) : UnorderedMap κ ν := ⟨[], layout, .nil⟩

/-- The value under a key. -/
def find? (m : UnorderedMap κ ν) (key : κ) : Option ν :=
  (m.entries.find? fun entry => Key.same key entry.1).map (·.2)

/-- Change the value under a key, if there is one. -/
def modify (m : UnorderedMap κ ν) (key : κ) (f : ν → ν) : UnorderedMap κ ν where
  entries := m.entries.map fun entry =>
    (entry.1, if Key.same key entry.1 then f entry.2 else entry.2)
  layout := m.layout
  distinct := List.pairwise_map.2 (m.distinct.imp id)

/-- Remove the entry under a key, if there is one. -/
def erase (m : UnorderedMap κ ν) (key : κ) : UnorderedMap κ ν where
  entries := m.entries.filter fun entry => !Key.same key entry.1
  layout := m.layout
  distinct := m.distinct.filter _

/-- Put a value under a key, in place of the one that is there; the key that is there stays. -/
def insert (m : UnorderedMap κ ν) (key : κ) (value : ν) : UnorderedMap κ ν :=
  if h : m.entries.any fun entry => Key.same key entry.1 then m.modify key fun _ => value
  else ⟨(key, value) :: m.entries, m.layout, List.pairwise_cons.2 ⟨by simpa using h, m.distinct⟩⟩

/-- Put the entries of a list into a map, one after the other. -/
def insertMany (m : UnorderedMap κ ν) (entries : List (κ × ν)) : UnorderedMap κ ν :=
  entries.foldl (fun m entry => m.insert entry.1 entry.2) m

/-- The map of a list of entries; the last entry under a key counts. -/
def ofList (layout : Layout (κ × ν)) (entries : List (κ × ν)) : UnorderedMap κ ν :=
  (empty layout).insertMany entries

/-- The entries in the order in which they are iterated. -/
def toList (m : UnorderedMap κ ν) : List (κ × ν) := m.layout.arrange m.entries

/-- Putting new keys into a map one after the other leaves each entry as it was put. -/
theorem entries_insertMany (m : UnorderedMap κ ν) (entries : List (κ × ν))
    (h : DistinctKeys (entries.reverse ++ m.entries)) :
    (m.insertMany entries).entries = entries.reverse ++ m.entries := by
  induction entries generalizing m with
  | nil => rfl
  | cons entry entries ih =>
    rw [List.reverse_cons, List.append_assoc, List.singleton_append] at h ⊢
    have hnew : ¬m.entries.any fun other => Key.same entry.1 other.1 := by
      simpa using (List.pairwise_cons.1 (List.pairwise_append.1 h).2.1).1
    have hentries : (m.insert entry.1 entry.2).entries = entry :: m.entries := by
      rw [insert, dif_neg hnew]
    rw [← hentries] at h ⊢
    exact ih _ h

instance : Sequence (UnorderedMap κ ν) (κ × ν) where
  toList m := m.toList
  size m := m.entries.length
  get? m i := m.toList[i]?

instance : LawfulSequence (UnorderedMap κ ν) (κ × ν) where
  size_eq m := (m.layout.perm m.entries).length_eq.symm
  get?_eq _ _ := rfl

instance : Erasable (UnorderedMap κ ν) (κ × ν) where
  eraseIfM p m := ofList m.layout <$> siftM (refuse p) m.toList

theorem distinct_perm {entries others : List (κ × ν)} (h : entries.Perm others) :
    DistinctKeys entries ↔ DistinctKeys others :=
  h.pairwise_iff fun {a b} hne => by rwa [Key.same_comm]

theorem distinct_toList (m : UnorderedMap κ ν) : DistinctKeys m.toList :=
  (distinct_perm (m.layout.perm m.entries)).2 m.distinct

/-- Removal leaves the entries that sifting the iterated ones leaves, the last in front. -/
theorem entries_eraseIfM {m : Type → Type} [Monad m] [LawfulMonad m] (p : κ × ν → m Bool)
    (c : UnorderedMap κ ν) :
    entries <$> Erasable.eraseIfM p c = List.reverse <$> siftM (refuse p) c.toList := by
  show entries <$> ofList c.layout <$> siftM (refuse p) c.toList = _
  rw [← val_retainM, Functor.map_map, Functor.map_map, Functor.map_map]
  refine congrArg (· <$> retainM (refuse p) c.toList) (funext fun kept => ?_)
  have hdistinct : DistinctKeys kept.1.reverse :=
    (distinct_perm (List.reverse_perm kept.1)).2 (c.distinct_toList.sublist kept.2)
  rw [ofList, entries_insertMany _ _ (by rwa [empty, List.append_nil])]
  exact List.append_nil _

end UnorderedMap

end

/-! ## Sets

Elements to be removed by a condition are asked about in the order of the layout and dropped where
they stand. -/

section

variable {α : Type} [Key α]

/-- A set iterated as its layout says. -/
structure UnorderedSet (α : Type) [Key α] where
  items : List α
  layout : Layout α
  distinct : items.Pairwise fun a b => Key.same a b = false

namespace UnorderedSet

/-- The set without elements. -/
def empty (layout : Layout α) : UnorderedSet α := ⟨[], layout, .nil⟩

/-- Add an element, unless one equal to it is there. -/
def insert (s : UnorderedSet α) (a : α) : UnorderedSet α :=
  if h : s.items.any fun b => Key.same a b then s
  else ⟨a :: s.items, s.layout, List.pairwise_cons.2 ⟨by simpa using h, s.distinct⟩⟩

/-- The set of the items of a list. -/
def ofList (layout : Layout α) (items : List α) : UnorderedSet α :=
  items.foldl insert (empty layout)

/-- The elements in the order in which they are iterated. -/
def toList (s : UnorderedSet α) : List α := s.layout.arrange s.items

instance : Sequence (UnorderedSet α) α where
  toList s := s.toList
  size s := s.items.length
  get? s i := s.toList[i]?

instance : LawfulSequence (UnorderedSet α) α where
  size_eq s := (s.layout.perm s.items).length_eq.symm
  get?_eq _ _ := rfl

theorem distinct_toList (s : UnorderedSet α) : s.toList.Pairwise fun a b => Key.same a b = false :=
  ((s.layout.perm s.items).pairwise_iff fun {a b} hne => by rwa [Key.same_comm]).2 s.distinct

instance : Erasable (UnorderedSet α) α where
  eraseIfM p s := do
    let ⟨kept, h⟩ ← retainM (refuse p) s.toList
    pure ⟨kept, s.layout, s.distinct_toList.sublist h⟩

/-- Removal leaves the elements that sifting the iterated ones leaves. -/
theorem items_eraseIfM {m : Type → Type} [Monad m] [LawfulMonad m] (p : α → m Bool)
    (c : UnorderedSet α) : items <$> Erasable.eraseIfM p c = siftM (refuse p) c.toList := by
  rw [← val_retainM]
  simp [Erasable.eraseIfM]

end UnorderedSet

end

end Sortition

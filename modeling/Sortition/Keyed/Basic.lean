import Sortition.Container.Sorted
import Sortition.Container.Unordered

/-!
# Maps by key

What sorted and unordered maps have in common: one value under each key, which can be found, changed
where it is, and removed.  `M` is the kind of map, to be applied to the type of its values.

`LawfulKeyedMap` says what the operations of a kind of map do to the list of its entries.  Every
kind has its own notion of two keys being the same, which need not be identity: a sorted map cannot
tell keys apart that its order calls equal.  The entries of a map have different keys in that sense,
so that there is one place for a key at most (`LawfulKeyedMap.exists_foundAt`).
-/

set_option autoImplicit false

namespace Sortition

/-- Kinds of maps with keys `κ`. -/
class KeyedMap (M : Type → Type) (κ : outParam Type) where
  /-- The map of a list of entries; the last entry under a key counts. -/
  ofList {ν : Type} : List (κ × ν) → M ν
  /-- The entries, in some order. -/
  entries {ν : Type} : M ν → List (κ × ν)
  /-- The value under a key. -/
  find? {ν : Type} : M ν → κ → Option ν
  /-- Change the value under a key, if there is one. -/
  modify {ν : Type} : M ν → κ → (ν → ν) → M ν
  /-- Remove the entry under a key, if there is one. -/
  erase {ν : Type} : M ν → κ → M ν

instance {κ : Type} [Ord κ] [Std.TransOrd κ] : KeyedMap (SortedMap κ) κ where
  ofList := SortedMap.ofList
  entries m := m.entries
  find? := SortedMap.find?
  modify := SortedMap.modify
  erase := SortedMap.erase

instance {κ : Type} [Key κ] : KeyedMap (UnorderedMap κ) κ where
  ofList := UnorderedMap.ofList .asInserted
  entries m := m.entries
  find? := UnorderedMap.find?
  modify := UnorderedMap.modify
  erase := UnorderedMap.erase

/-! ## The laws -/

/-- The operations of a kind of map act on its entries, whose keys are all different. -/
class LawfulKeyedMap (M : Type → Type) (κ : outParam Type) [KeyedMap M κ] where
  /-- Two keys are the same to maps of this kind. -/
  same : κ → κ → Bool
  same_comm : ∀ k l, same k l = same l k
  same_trans : ∀ {k l n}, same k l = true → same l n = true → same k n = true
  different : ∀ {ν : Type} (m : M ν),
    (KeyedMap.entries m).Pairwise fun a b => same a.1 b.1 = false
  find?_eq : ∀ {ν : Type} (m : M ν) (key : κ), KeyedMap.find? m key =
    ((KeyedMap.entries m).find? fun entry => same key entry.1).map (·.2)
  entries_modify : ∀ {ν : Type} (m : M ν) (key : κ) (f : ν → ν),
    KeyedMap.entries (KeyedMap.modify m key f) =
      (KeyedMap.entries m).map fun entry =>
        (entry.1, if same key entry.1 then f entry.2 else entry.2)
  entries_erase : ∀ {ν : Type} (m : M ν) (key : κ),
    KeyedMap.entries (KeyedMap.erase m key) =
      (KeyedMap.entries m).filter fun entry => !same key entry.1

namespace LawfulKeyedMap

variable {M : Type → Type} {κ ν : Type} [KeyedMap M κ] [LawfulKeyedMap M κ]

theorem same_congr {k l n : κ} (h : same M k l = true) : same M n k = same M n l := by
  have h' : same M l k = true := by rw [same_comm, h]
  exact Bool.eq_iff_iff.2 ⟨fun hn => same_trans hn h, fun hn => same_trans hn h'⟩

theorem find?_eq_none {m : M ν} {key : κ} (h : KeyedMap.find? m key = none) :
    ∀ entry ∈ KeyedMap.entries m, same M key entry.1 = false := by
  rw [find?_eq, Option.map_eq_none_iff, List.find?_eq_none] at h
  simpa using h

/-- The value under a key stands in one place among the entries, and the key is that of no other
entry. -/
structure FoundAt (m : M ν) (key : κ) (before : List (κ × ν)) (k : κ) (v : ν)
    (after : List (κ × ν)) : Prop where
  entries_eq : KeyedMap.entries m = before ++ (k, v) :: after
  same_key : same M key k = true
  others : ∀ entry ∈ before ++ after, same M key entry.1 = false

theorem exists_foundAt {m : M ν} {key : κ} {v : ν} (h : KeyedMap.find? m key = some v) :
    ∃ before k after, FoundAt m key before k v after := by
  rw [find?_eq, Option.map_eq_some_iff] at h
  obtain ⟨⟨k, _⟩, hfind, rfl⟩ := h
  obtain ⟨hsame, before, after, hentries, hbefore⟩ := List.find?_eq_some_iff_append.1 hfind
  have hdifferent := different m
  rw [hentries, List.pairwise_append, List.pairwise_cons] at hdifferent
  refine ⟨before, k, after, hentries, hsame, fun entry hmem => ?_⟩
  rcases List.mem_append.1 hmem with hmem | hmem
  · simpa using hbefore entry hmem
  · -- an entry behind it with the same key would have the key of this one
    rw [same_comm, same_congr hsame, same_comm]
    exact hdifferent.2.1.1 entry hmem

section

variable {m : M ν} {key k : κ} {v : ν} {before after : List (κ × ν)}

theorem FoundAt.entries_erase (h : FoundAt m key before k v after) :
    KeyedMap.entries (KeyedMap.erase m key) = before ++ after := by
  have hothers : (before ++ after).filter (fun entry => !same M key entry.1) = before ++ after :=
    List.filter_eq_self.2 fun entry hmem => by rw [h.others entry hmem]; rfl
  rw [LawfulKeyedMap.entries_erase, h.entries_eq, ← hothers, List.filter_append,
    List.filter_append, List.filter_cons, h.same_key]
  rfl

theorem FoundAt.entries_modify (h : FoundAt m key before k v after) (f : ν → ν) :
    KeyedMap.entries (KeyedMap.modify m key f) = before ++ (k, f v) :: after := by
  have hothers : ∀ entry ∈ before ++ after,
      (entry.1, if same M key entry.1 then f entry.2 else entry.2) = entry := fun entry hmem => by
    rw [h.others entry hmem]
    rfl
  obtain ⟨hbefore, hafter⟩ := List.forall_mem_append.1 hothers
  rw [LawfulKeyedMap.entries_modify, h.entries_eq, List.map_append, List.map_cons, h.same_key,
    List.map_congr_left hbefore, List.map_congr_left hafter, List.map_id', List.map_id', if_pos rfl]

end

end LawfulKeyedMap

instance {κ : Type} [Ord κ] [Std.TransOrd κ] : LawfulKeyedMap (SortedMap κ) κ where
  same k l := compare k l == .eq
  same_comm k l := by
    have h : compare k l = (compare l k).swap := Std.OrientedCmp.eq_swap
    rw [h]
    cases compare l k <;> rfl
  same_trans hkl hln := by
    rw [beq_iff_eq] at hkl hln ⊢
    exact Std.TransCmp.eq_trans hkl hln
  different m := m.ascending.imp fun h => by rw [h]; rfl
  find?_eq _ _ := rfl
  entries_modify _ _ _ := rfl
  entries_erase _ _ := rfl

instance {κ : Type} [Key κ] : LawfulKeyedMap (UnorderedMap κ) κ where
  same := Key.same
  same_comm := Key.same_comm
  same_trans := Key.same_trans
  different m := m.distinct
  find?_eq _ _ := rfl
  entries_modify _ _ _ := rfl
  entries_erase _ _ := rfl

end Sortition

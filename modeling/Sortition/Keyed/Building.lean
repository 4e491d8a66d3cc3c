import Sortition.Keyed.Basic

/-!
# Building maps from lists of entries

A map is built from a list in which several entries may have the same key.  `LawfulBuilding` says
what it comes to: the last entry under a key counts (`find?_ofList`), and which entries there are
has nothing to do with the values (`entries_ofList_mapValues`).  From the second law it follows that
maps of values, of boxes and of references that are built from the same keys have their entries in
the same places.

Sorted maps and unordered ones are built from opposite ends of the list.  What the one leaves alone
because the key is there already, the other puts there and replaces later.
-/

set_option autoImplicit false

namespace Sortition

open LawfulKeyedMap (same)

variable {M : Type → Type} {κ ν ν' ν'' : Type}

/-- The same keys, with other values. -/
def mapValues (f : ν → ν') (entries : List (κ × ν)) : List (κ × ν') :=
  entries.map fun entry => (entry.1, f entry.2)

theorem mapValues_mapValues (f : ν → ν') (g : ν' → ν'') (entries : List (κ × ν)) :
    mapValues g (mapValues f entries) = mapValues (fun v => g (f v)) entries := List.map_map

theorem any_mapValues (f : ν → ν') (p : κ → Bool) (entries : List (κ × ν)) :
    (mapValues f entries).any (fun entry => p entry.1) = entries.any fun entry => p entry.1 :=
  List.any_map

section

variable [KeyedMap M κ] [LawfulKeyedMap M κ]

section

variable (M)

/-- The value of the first entry that has a key. -/
def valueUnder? (entries : List (κ × ν)) (key : κ) : Option ν :=
  (entries.find? fun entry => same M key entry.1).map (·.2)

/-- The value of the last entry that has a key. -/
def lastUnder? (entries : List (κ × ν)) (key : κ) : Option ν :=
  valueUnder? M entries.reverse key

end

theorem valueUnder?_cons (entry : κ × ν) (entries : List (κ × ν)) (key : κ) :
    valueUnder? M (entry :: entries) key =
      if same M key entry.1 then some entry.2 else valueUnder? M entries key := by
  rw [valueUnder?, List.find?_cons]
  cases same M key entry.1 <;> rfl

theorem valueUnder?_append (entries others : List (κ × ν)) (key : κ) :
    valueUnder? M (entries ++ others) key =
      (valueUnder? M entries key).or (valueUnder? M others key) := by
  rw [valueUnder?, List.find?_append, Option.map_or]
  rfl

theorem valueUnder?_mapValues (f : ν → ν') (entries : List (κ × ν)) (key : κ) :
    valueUnder? M (mapValues f entries) key = (valueUnder? M entries key).map f := by
  rw [valueUnder?, mapValues, List.find?_map, Option.map_map, valueUnder?, Option.map_map]
  rfl

theorem lastUnder?_cons (entry : κ × ν) (entries : List (κ × ν)) (key : κ) :
    lastUnder? M (entry :: entries) key =
      (lastUnder? M entries key).or (if same M key entry.1 then some entry.2 else none) := by
  rw [lastUnder?, List.reverse_cons, valueUnder?_append, valueUnder?_cons]
  rfl

/-- What is found under a key belongs to an entry with this key. -/
theorem exists_of_valueUnder? {entries : List (κ × ν)} {key : κ} {v : ν}
    (h : valueUnder? M entries key = some v) :
    ∃ entry ∈ entries, same M key entry.1 = true ∧ entry.2 = v := by
  obtain ⟨entry, hfind, hvalue⟩ := Option.map_eq_some_iff.1 h
  have hsame := List.find?_some hfind
  exact ⟨entry, List.mem_of_find?_eq_some hfind, hsame, hvalue⟩

/-- What is found when the values under one key are changed. -/
theorem valueUnder?_map_if (entries : List (κ × ν)) (key k : κ) (f : ν → ν) :
    valueUnder? M
        (entries.map fun entry => (entry.1, if same M key entry.1 then f entry.2 else entry.2)) k =
      if same M k key then (valueUnder? M entries k).map f else valueUnder? M entries k := by
  induction entries with
  | nil => split <;> rfl
  | cons entry entries ih =>
    rw [List.map_cons, valueUnder?_cons, valueUnder?_cons, ih]
    by_cases hentry : same M k entry.1 = true
    · have hkey : same M key entry.1 = same M k key := by
        rw [LawfulKeyedMap.same_comm k key, LawfulKeyedMap.same_congr hentry]
      simp only [hentry, hkey, if_true]
      split <;> rfl
    · simp only [hentry, Bool.false_eq_true, if_false]

theorem valueUnder?_eq_none_iff {entries : List (κ × ν)} {key : κ} :
    valueUnder? M entries key = none ↔ ∀ entry ∈ entries, same M key entry.1 = false := by
  rw [valueUnder?, Option.map_eq_none_iff, List.find?_eq_none]
  simp only [Bool.not_eq_true]

theorem find?_eq_valueUnder? (m : M ν) (key : κ) :
    KeyedMap.find? m key = valueUnder? M (KeyedMap.entries m) key := LawfulKeyedMap.find?_eq m key

/-- To put in place what becomes of the value that was found is to change it. -/
theorem entries_modify_of_find? {m : M ν} {key : κ} {v : ν} (h : KeyedMap.find? m key = some v)
    (f : ν → ν) : KeyedMap.entries (KeyedMap.modify m key fun _ => f v) =
      KeyedMap.entries (KeyedMap.modify m key f) := by
  obtain ⟨before, k, after, hfound⟩ := LawfulKeyedMap.exists_foundAt h
  rw [hfound.entries_modify, hfound.entries_modify]

/-- To put back the value that was found changes nothing. -/
theorem entries_modify_self {m : M ν} {key : κ} {v : ν} (h : KeyedMap.find? m key = some v) :
    KeyedMap.entries (KeyedMap.modify m key fun _ => v) = KeyedMap.entries m := by
  obtain ⟨before, k, after, hfound⟩ := LawfulKeyedMap.exists_foundAt h
  rw [hfound.entries_modify, hfound.entries_eq]

/-- What stands in a map is found under its key. -/
theorem valueUnder?_of_mem {m : M ν} {entry : κ × ν} (hmem : entry ∈ KeyedMap.entries m)
    {key : κ} (hkey : same M key entry.1 = true) :
    valueUnder? M (KeyedMap.entries m) key = some entry.2 := by
  rw [← find?_eq_valueUnder?]
  cases hfind : KeyedMap.find? m key with
  | none =>
    rw [LawfulKeyedMap.find?_eq_none hfind entry hmem] at hkey
    cases hkey
  | some v =>
    obtain ⟨before, k, after, hfound⟩ := LawfulKeyedMap.exists_foundAt hfind
    rw [hfound.entries_eq, List.mem_append, List.mem_cons] at hmem
    have hother : entry ∉ before ++ after := by
      intro hmem
      rw [hfound.others entry hmem] at hkey
      cases hkey
    rw [List.mem_append, not_or] at hother
    rcases hmem with hmem | rfl | hmem
    · exact absurd hmem hother.1
    · rfl
    · exact absurd hmem hother.2

end

/-- Maps are built from lists of entries regardless of the values, and the last entry under a key
counts. -/
class LawfulBuilding (M : Type → Type) (κ : outParam Type) [KeyedMap M κ] [LawfulKeyedMap M κ] :
    Prop where
  same_refl : ∀ key, same M key key = true
  find?_ofList : ∀ {ν : Type} (entries : List (κ × ν)) (key : κ),
    KeyedMap.find? (KeyedMap.ofList entries : M ν) key = lastUnder? M entries key
  entries_ofList_mapValues : ∀ {ν ν' : Type} (f : ν → ν') (entries : List (κ × ν)),
    KeyedMap.entries (KeyedMap.ofList (mapValues f entries) : M ν') =
      mapValues f (KeyedMap.entries (KeyedMap.ofList entries : M ν))

/-! ## Sorted maps -/

namespace SortedMap

variable [Ord κ]

theorem insertEntry_mapValues (f : ν → ν') (replace : Bool) (key : κ) (value : ν)
    (entries : List (κ × ν)) :
    insertEntry replace key (f value) (mapValues f entries) =
      mapValues f (insertEntry replace key value entries) := by
  induction entries with
  | nil => rfl
  | cons entry entries ih =>
    change insertEntry replace key (f value) ((entry.1, f entry.2) :: mapValues f entries) = _
    rw [insertEntry, insertEntry]
    cases compare key entry.1 with
    | lt => rfl
    | eq => cases replace <;> rfl
    | gt => exact congrArg (_ :: ·) ih

variable [Std.TransOrd κ]

/-- An entry that is put in front of the others, or in its place among them, counts only if there is
none with its key. -/
theorem valueUnder?_insertEntry {entries : List (κ × ν)} (h : Ascending entries) (key k : κ)
    (value : ν) :
    valueUnder? (SortedMap κ) (insertEntry false key value entries) k =
      (valueUnder? (SortedMap κ) entries k).or
        (if same (SortedMap κ) k key then some value else none) := by
  induction entries with
  | nil => exact valueUnder?_cons _ _ _
  | cons entry entries ih =>
    obtain ⟨hall, htail⟩ := List.pairwise_cons.1 h
    rw [insertEntry]
    cases hcompare : compare key entry.1 with
    | lt =>
      show valueUnder? (SortedMap κ) ((key, value) :: entry :: entries) k = _
      rw [valueUnder?_cons]
      by_cases hsame : same (SortedMap κ) k key = true
      · -- all entries that were there have larger keys
        have hnone : valueUnder? (SortedMap κ) (entry :: entries) k = none := by
          refine valueUnder?_eq_none_iff.2 fun e hmem => ?_
          have hlarger : compare key e.1 = .lt := by
            rcases List.mem_cons.1 hmem with rfl | hmem
            · exact hcompare
            · exact Std.TransCmp.lt_trans hcompare (hall e hmem)
          have hlt : compare k e.1 = .lt :=
            Std.TransCmp.lt_of_eq_of_lt (beq_iff_eq.1 hsame) hlarger
          show (compare k e.1 == .eq) = false
          rw [hlt]
          rfl
        rw [if_pos hsame, if_pos hsame, hnone]
        rfl
      · rw [if_neg hsame, if_neg hsame, Option.or_none]
    | eq =>
      show valueUnder? (SortedMap κ) (entry :: entries) k = _
      rw [valueUnder?_cons]
      by_cases hsame : same (SortedMap κ) k key = true
      · have hentry : same (SortedMap κ) k entry.1 = true :=
          LawfulKeyedMap.same_trans hsame (beq_iff_eq.2 hcompare)
        rw [if_pos hentry]
        rfl
      · rw [if_neg hsame, Option.or_none]
    | gt =>
      show valueUnder? (SortedMap κ) (entry :: insertEntry false key value entries) k = _
      rw [valueUnder?_cons, valueUnder?_cons, ih htail]
      split <;> rfl

theorem valueUnder?_entries_ofList (entries : List (κ × ν)) (key : κ) :
    valueUnder? (SortedMap κ) (ofList entries).entries key =
      lastUnder? (SortedMap κ) entries key := by
  induction entries with
  | nil => rfl
  | cons entry entries ih =>
    rw [lastUnder?_cons, ← ih]
    exact valueUnder?_insertEntry (ofList entries).ascending _ _ _

theorem entries_ofList_mapValues (f : ν → ν') (entries : List (κ × ν)) :
    (ofList (mapValues f entries)).entries = mapValues f (ofList entries).entries := by
  induction entries with
  | nil => rfl
  | cons entry entries ih =>
    show insertEntry false entry.1 (f entry.2) (ofList (mapValues f entries)).entries = _
    rw [ih]
    exact insertEntry_mapValues f false _ _ _

instance : LawfulBuilding (SortedMap κ) κ where
  same_refl _ := beq_iff_eq.2 Std.ReflCmp.compare_self
  find?_ofList := valueUnder?_entries_ofList
  entries_ofList_mapValues := entries_ofList_mapValues

end SortedMap

/-! ## Unordered maps -/

namespace UnorderedMap

variable [Key κ]

theorem entries_insert (m : UnorderedMap κ ν) (key : κ) (value : ν) :
    (m.insert key value).entries =
      if m.entries.any fun entry => Key.same key entry.1 then
        m.entries.map fun entry => (entry.1, if Key.same key entry.1 then value else entry.2)
      else (key, value) :: m.entries := by
  rw [insert]
  split <;> rfl

theorem entries_insert_of_eq_mapValues (f : ν → ν') {m : UnorderedMap κ ν}
    {m' : UnorderedMap κ ν'} (h : m'.entries = mapValues f m.entries) (key : κ) (value : ν) :
    (m'.insert key (f value)).entries = mapValues f (m.insert key value).entries := by
  rw [entries_insert, entries_insert, h, any_mapValues f (Key.same key)]
  split
  · rw [mapValues, mapValues, List.map_map, List.map_map]
    refine List.map_congr_left fun entry _ => ?_
    show (entry.1, if Key.same key entry.1 then f value else f entry.2) =
      (entry.1, f (if Key.same key entry.1 then value else entry.2))
    split <;> rfl
  · rfl

theorem entries_insertMany_of_eq_mapValues (f : ν → ν') {m : UnorderedMap κ ν}
    {m' : UnorderedMap κ ν'} (h : m'.entries = mapValues f m.entries) (entries : List (κ × ν)) :
    (m'.insertMany (mapValues f entries)).entries = mapValues f (m.insertMany entries).entries := by
  induction entries generalizing m m' with
  | nil => exact h
  | cons entry entries ih => exact ih (entries_insert_of_eq_mapValues f h entry.1 entry.2)

/-- An entry that is put into a map counts in any case. -/
theorem valueUnder?_insert (m : UnorderedMap κ ν) (key k : κ) (value : ν) :
    valueUnder? (UnorderedMap κ) (m.insert key value).entries k =
      if same (UnorderedMap κ) k key then some value
      else valueUnder? (UnorderedMap κ) m.entries k := by
  rw [entries_insert]
  by_cases hthere : (m.entries.any fun entry => Key.same key entry.1) = true
  · rw [if_pos hthere]
    refine (valueUnder?_map_if m.entries key k fun _ => value).trans ?_
    by_cases hsame : same (UnorderedMap κ) k key = true
    · obtain ⟨entry, hmem, hentry⟩ := List.any_eq_true.1 hthere
      have hfound : valueUnder? (UnorderedMap κ) m.entries k ≠ none := by
        intro hnone
        have hother := valueUnder?_eq_none_iff.1 hnone entry hmem
        rw [LawfulKeyedMap.same_trans hsame hentry] at hother
        cases hother
      obtain ⟨v, hv⟩ := Option.ne_none_iff_exists'.1 hfound
      rw [if_pos hsame, if_pos hsame, hv]
      rfl
    · rw [if_neg hsame, if_neg hsame]
  · rw [if_neg hthere]
    exact valueUnder?_cons _ _ _

theorem valueUnder?_insertMany (m : UnorderedMap κ ν) (entries : List (κ × ν)) (key : κ) :
    valueUnder? (UnorderedMap κ) (m.insertMany entries).entries key =
      (lastUnder? (UnorderedMap κ) entries key).or
        (valueUnder? (UnorderedMap κ) m.entries key) := by
  induction entries generalizing m with
  | nil => rfl
  | cons entry entries ih =>
    refine (ih (m.insert entry.1 entry.2)).trans ?_
    rw [lastUnder?_cons, Option.or_assoc, valueUnder?_insert]
    split <;> rfl

instance : LawfulBuilding (UnorderedMap κ) κ where
  same_refl key := Key.equivalence.refl key
  find?_ofList entries key := by
    refine (valueUnder?_insertMany (empty .asInserted) entries key).trans ?_
    exact Option.or_none
  entries_ofList_mapValues f entries := entries_insertMany_of_eq_mapValues f rfl entries

end UnorderedMap

end Sortition

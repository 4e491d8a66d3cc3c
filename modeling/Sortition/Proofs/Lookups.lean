import Mathlib.Data.List.FinRange
import Mathlib.Data.List.Nodup
import Sortition.Keyed.Operations
import Sortition.Keyed.Building

/-!
# Values, boxes and references under keys

A map can hold values, or boxes of values, or references to cells in which the values are.  Who
looks values up in it and changes them in place should not notice which.  A `Keeping` is what there
is to notice: what a lookup finds, what a write does, and the map that is shown, addresses followed.

That references do as well as values is not for granted.  A write through one reference is seen
through every other one to the same cell, so different keys must have different cells at all times.
This holds if every entry is put into the map with a cell of its own (`unshared_ofList`): an entry
that is replaced takes its cell out of reach, and nobody writes to that cell again.

* `told` says what accesses come to on a plain list of entries.
* `Keeping.Sound` says of one step that it is no different for what a keeping shows, and
  `Keeping.Sound.reports_eq` says it of whole runs.
* `sound_byValue`, `sound_boxes` and `sound_references` are the three ways to keep values.
* `cells_after` says what becomes of each cell.
* `accesses_agree` is the main statement.
-/

set_option autoImplicit false

namespace Sortition

open LawfulKeyedMap (same)

variable {M : Type → Type} {κ V S P μ : Type} {n : Nat}

/-! ## Accesses -/

/-- A lookup, or a write in place, which can be any change of the value: to replace it, to add to
it, to append to it. -/
inductive Access (κ V : Type)
  | look (key : κ)
  | write (key : κ) (f : V → V)

/-- What an access came to: the value that is there, or whether there was one to write to. -/
inductive Finding (V : Type)
  | found (v : Option V)
  | written (done : Bool)
deriving DecidableEq, Repr

/-- A way to keep values under keys. -/
structure Keeping (S κ V : Type) where
  look? : S → κ → Option V
  write? : (V → V) → S → κ → Option S
  /-- All keys with their values. -/
  shown : S → List (κ × V)

namespace Keeping

/-- A map of the values themselves. -/
def byValue [KeyedMap M κ] : Keeping (M V) κ V where
  look? := valueAt?
  write? := modifyValueAt?
  shown := KeyedMap.entries

/-- A map of addresses, and the memory in which they are followed. -/
def byAddress [KeyedMap M κ] [WritableAddress P μ V] : Keeping (μ × M P) κ V where
  look? s := targetAt? s.1 s.2
  write? f s := modifyTargetAt? f s.1 s.2
  shown s := mapValues (Address.read s.1) (KeyedMap.entries s.2)

theorem write?_byValue [KeyedMap M κ] (f : V → V) (m : M V) (key : κ) :
    byValue.write? f m key = (KeyedMap.find? m key).map fun _ => KeyedMap.modify m key f := rfl

theorem write?_byAddress [KeyedMap M κ] [WritableAddress P μ V] (f : V → V) (s : μ × M P)
    (key : κ) :
    byAddress.write? f s key = (KeyedMap.find? s.2 key).map fun address =>
      ((WritableAddress.modify f s.1 address).1,
        KeyedMap.modify s.2 key fun _ => (WritableAddress.modify f s.1 address).2) := rfl

variable (kept : Keeping S κ V)

/-- What an access comes to, and the state after it, which is the same if a write finds nothing. -/
def access (s : S) : Access κ V → Finding V × S
  | .look key => (.found (kept.look? s key), s)
  | .write key f =>
    match kept.write? f s key with
    | none => (.written false, s)
    | some next => (.written true, next)

/-- What each of several accesses comes to, and what is shown after it. -/
def reports (s : S) : List (Access κ V) → List (Finding V × List (κ × V))
  | [] => []
  | a :: accesses =>
    ((kept.access s a).1, kept.shown (kept.access s a).2) :: reports (kept.access s a).2 accesses

/-- The state after several accesses. -/
def after (s : S) (accesses : List (Access κ V)) : S :=
  accesses.foldl (fun s a => (kept.access s a).2) s

/-- There is nothing under a key, neither to be found nor to be written to. -/
def Lacks (s : S) (key : κ) : Prop := kept.look? s key = none ∧ ∀ f, kept.write? f s key = none

end Keeping

/-! ## Accesses to a list of entries -/

/-- What an access makes of a value that is reached under some keys. -/
def Access.change (hits : κ → Bool) : Access κ V → V → V
  | look _, v => v
  | write key f, v => if hits key then f v else v

/-- What several accesses make of a value that is reached under some keys. -/
def changed (hits : κ → Bool) (accesses : List (Access κ V)) (v : V) : V :=
  accesses.foldl (fun v a => a.change hits v) v

/-- A value is not changed unless it is reached. -/
theorem changed_of_forall_not {hits : κ → Bool} {accesses : List (Access κ V)}
    (h : ∀ key f, Access.write key f ∈ accesses → hits key = false) (v : V) :
    changed hits accesses v = v := by
  induction accesses generalizing v with
  | nil => rfl
  | cons a accesses ih =>
    have hfirst : a.change hits v = v := by
      cases a with
      | look key => rfl
      | write key f => rw [Access.change, h key f List.mem_cons_self, if_neg Bool.false_ne_true]
    show changed hits accesses (a.change hits v) = v
    rw [hfirst]
    exact ih (fun key f hmem => h key f (List.mem_cons_of_mem a hmem)) v

section

variable [KeyedMap M κ] [LawfulKeyedMap M κ]

section

variable (M)

/-- What an access makes of the entries: a write changes the entry of its key. -/
def Access.edit (a : Access κ V) (entries : List (κ × V)) : List (κ × V) :=
  entries.map fun entry => (entry.1, a.change (fun key => same M key entry.1) entry.2)

/-- What an access comes to on a list of entries. -/
def Access.finding (entries : List (κ × V)) : Access κ V → Finding V
  | look key => .found (valueUnder? M entries key)
  | write key _ => .written (valueUnder? M entries key).isSome

/-- What each of several accesses comes to on a list of entries, and the entries after it. -/
def told (entries : List (κ × V)) : List (Access κ V) → List (Finding V × List (κ × V))
  | [] => []
  | a :: accesses =>
    (a.finding M entries, a.edit M entries) :: told (a.edit M entries) accesses

/-- In the states with `inv`, accesses do to what is shown what they do to a list of entries. -/
structure Keeping.Sound (kept : Keeping S κ V) (inv : S → Prop) : Prop where
  look?_eq : ∀ {s}, inv s → ∀ key, kept.look? s key = valueUnder? M (kept.shown s) key
  write?_eq_none : ∀ {s key}, inv s → valueUnder? M (kept.shown s) key = none →
    ∀ f, kept.write? f s key = none
  exists_write? : ∀ {s key v}, inv s → valueUnder? M (kept.shown s) key = some v →
    ∀ f, ∃ next, kept.write? f s key = some next ∧ inv next ∧
      kept.shown next = (Access.write key f).edit M (kept.shown s)

end

theorem Access.edit_look (key : κ) (entries : List (κ × V)) :
    (Access.look key).edit M entries = entries := List.map_id _

theorem Access.edit_write_of_eq_none {key : κ} {entries : List (κ × V)}
    (h : valueUnder? M entries key = none) (f : V → V) :
    (Access.write key f).edit M entries = entries := by
  refine (List.map_congr_left ?_).trans (List.map_id _)
  intro entry hmem
  rw [Access.change, valueUnder?_eq_none_iff.1 h entry hmem, if_neg Bool.false_ne_true]
  rfl

/-- No access brings a key in. -/
theorem Access.valueUnder?_edit_eq_none {key : κ} {entries : List (κ × V)}
    (h : valueUnder? M entries key = none) (a : Access κ V) :
    valueUnder? M (a.edit M entries) key = none := by
  rw [valueUnder?_eq_none_iff]
  intro entry hmem
  obtain ⟨old, hold, rfl⟩ := List.mem_map.1 hmem
  exact valueUnder?_eq_none_iff.1 h old hold

/-! ## One step, and a run -/

namespace Keeping.Sound

variable {kept : Keeping S κ V} {inv : S → Prop}

theorem access (h : kept.Sound M inv) {s : S} (hs : inv s) (a : Access κ V) :
    (kept.access s a).1 = a.finding M (kept.shown s) ∧ inv (kept.access s a).2 ∧
      kept.shown (kept.access s a).2 = a.edit M (kept.shown s) := by
  cases a with
  | look key => exact ⟨congrArg _ (h.look?_eq hs key), hs, (Access.edit_look _ _).symm⟩
  | write key f =>
    rw [Access.finding, Keeping.access]
    cases hvalue : valueUnder? M (kept.shown s) key with
    | none =>
      rw [h.write?_eq_none hs hvalue f]
      exact ⟨rfl, hs, (Access.edit_write_of_eq_none hvalue f).symm⟩
    | some v =>
      obtain ⟨next, hwrite, hnext, hshown⟩ := h.exists_write? hs hvalue f
      rw [hwrite]
      exact ⟨rfl, hnext, hshown⟩

/-- **A run of accesses is a run of them on the entries that are shown.** -/
theorem reports_eq (h : kept.Sound M inv) {s : S} (hs : inv s) (accesses : List (Access κ V)) :
    kept.reports s accesses = told M (kept.shown s) accesses := by
  induction accesses generalizing s with
  | nil => rfl
  | cons a accesses ih =>
    obtain ⟨hfinding, hnext, hshown⟩ := h.access hs a
    rw [reports, told, ih hnext, hfinding, hshown]

/-- What is not there at first is not there after any accesses. -/
theorem lacks_after (h : kept.Sound M inv) {s : S} (hs : inv s) {key : κ}
    (hnone : valueUnder? M (kept.shown s) key = none) (accesses : List (Access κ V)) :
    kept.Lacks (kept.after s accesses) key := by
  induction accesses generalizing s with
  | nil => exact ⟨(h.look?_eq hs key).trans hnone, h.write?_eq_none hs hnone⟩
  | cons a accesses ih =>
    obtain ⟨-, hnext, hshown⟩ := h.access hs a
    refine ih hnext ?_
    rw [hshown]
    exact Access.valueUnder?_edit_eq_none hnone a

end Keeping.Sound

/-! ## Values and boxes -/

theorem sound_byValue : (Keeping.byValue : Keeping (M V) κ V).Sound M fun _ => True where
  look?_eq _ key := find?_eq_valueUnder? _ key
  write?_eq_none {m key} _ hnone f := by
    have hfind : KeyedMap.find? m key = none := (find?_eq_valueUnder? m key).trans hnone
    rw [Keeping.write?_byValue, hfind]
    rfl
  exists_write? {m key v} _ hsome f := by
    have hfind : KeyedMap.find? m key = some v := (find?_eq_valueUnder? m key).trans hsome
    rw [Keeping.write?_byValue, hfind]
    exact ⟨_, rfl, trivial, LawfulKeyedMap.entries_modify m key f⟩

section

variable [WritableAddress P μ V]

/-- What is shown under a key is what the address there leads to. -/
theorem valueUnder?_shown_byAddress (s : μ × M P) (key : κ) :
    valueUnder? M (Keeping.byAddress.shown s) key =
      (KeyedMap.find? s.2 key).map (Address.read s.1) := by
  rw [find?_eq_valueUnder?]
  exact valueUnder?_mapValues _ _ _

/-- Of a map of addresses there is only to be shown what a write through one of them does. -/
theorem sound_byAddress {inv : μ × M P → Prop}
    (h : ∀ {s key address}, inv s → KeyedMap.find? s.2 key = some address → ∀ f : V → V,
      let written := WritableAddress.modify f s.1 address
      let next := (written.1, KeyedMap.modify s.2 key fun _ => written.2)
      inv next ∧ Keeping.byAddress.shown next =
        (Access.write key f).edit M (Keeping.byAddress.shown s)) :
    (Keeping.byAddress : Keeping (μ × M P) κ V).Sound M inv where
  look?_eq _ key := (valueUnder?_shown_byAddress _ key).symm
  write?_eq_none hs hnone f := by
    rw [valueUnder?_shown_byAddress, Option.map_eq_none_iff] at hnone
    rw [Keeping.write?_byAddress, hnone]
    rfl
  exists_write? hs hsome f := by
    rw [valueUnder?_shown_byAddress, Option.map_eq_some_iff] at hsome
    obtain ⟨address, hfind, -⟩ := hsome
    rw [Keeping.write?_byAddress, hfind]
    exact ⟨_, rfl, h hs hfind f⟩

end

theorem sound_boxes :
    (Keeping.byAddress : Keeping (Unit × M (Boxed V)) κ V).Sound M fun _ => True := by
  refine sound_byAddress ?_
  intro s key box _ hfind f
  refine ⟨trivial, ?_⟩
  show mapValues Boxed.content
    (KeyedMap.entries (KeyedMap.modify s.2 key fun _ => ⟨f box.content⟩)) = _
  rw [entries_modify_of_find? hfind fun box => ⟨f box.content⟩, LawfulKeyedMap.entries_modify]
  refine List.map_map.trans (.trans (List.map_congr_left ?_) List.map_map.symm)
  intro entry _
  show (entry.1, (if same M key entry.1 then Boxed.mk (f entry.2.content) else entry.2).content) =
    (entry.1, if same M key entry.1 then f entry.2.content else entry.2.content)
  split <;> rfl

/-! ## References -/

section

variable (M)

/-- Under every key there is a reference to a cell of its own. -/
def Unshared (slots : List (κ × Fin n)) : Prop :=
  ∀ slot ∈ slots, ∀ key, valueUnder? M slots key = some slot.2 ↔ same M key slot.1 = true

end

/-- **If every entry has a cell of its own, every key has.**  Two keys of the map with the same cell
would have it from the same entry. -/
theorem unshared_ofList [LawfulBuilding M κ] {places : List (κ × Fin n)}
    (h : (places.map (·.2)).Nodup) :
    Unshared M (KeyedMap.entries (KeyedMap.ofList places : M (Fin n))) := by
  have hlast : ∀ key i,
      valueUnder? M (KeyedMap.entries (KeyedMap.ofList places : M (Fin n))) key = some i →
      ∃ place ∈ places, same M key place.1 = true ∧ place.2 = i := by
    intro key i hvalue
    rw [← find?_eq_valueUnder?, LawfulBuilding.find?_ofList] at hvalue
    obtain ⟨place, hmem, hplace⟩ := exists_of_valueUnder? hvalue
    exact ⟨place, List.mem_reverse.1 hmem, hplace⟩
  intro slot hslot key
  constructor
  · intro hvalue
    have hown := valueUnder?_of_mem hslot (LawfulBuilding.same_refl slot.1)
    obtain ⟨place, hplace, hkey, hcell⟩ := hlast key slot.2 hvalue
    obtain ⟨other, hother, hslotkey, hothercell⟩ := hlast slot.1 slot.2 hown
    obtain rfl : place = other :=
      List.inj_on_of_nodup_map h hplace hother (hcell.trans hothercell.symm)
    rw [LawfulKeyedMap.same_congr hslotkey]
    exact hkey
  · intro hkey
    exact valueUnder?_of_mem hslot hkey

section

variable {slots : List (κ × Fin n)} {key : κ} {i : Fin n}

/-- A change of the cell of a key is seen under this key only. -/
theorem mapValues_set (hslots : Unshared M slots) (hcell : valueUnder? M slots key = some i)
    (cells : Vector V n) (f : V → V) :
    mapValues (fun j => (cells.set i (f cells[i]))[j]) slots =
      (Access.write key f).edit M (mapValues (fun j => cells[j]) slots) := by
  refine .trans (List.map_congr_left ?_) List.map_map.symm
  intro slot hmem
  show (slot.1, (cells.set i (f cells[i]))[slot.2]) =
    (slot.1, if same M key slot.1 then f cells[slot.2] else cells[slot.2])
  by_cases hkey : same M key slot.1 = true
  · obtain rfl : i = slot.2 := Option.some.inj (hcell.symm.trans ((hslots slot hmem key).2 hkey))
    rw [if_pos hkey, Fin.getElem_fin, Vector.getElem_set_self]
  · have hne : i ≠ slot.2 := by
      rintro rfl
      exact hkey ((hslots slot hmem key).1 hcell)
    rw [if_neg hkey, Fin.getElem_fin, Vector.getElem_set_ne _ _ (Fin.val_ne_of_ne hne)]
    rfl

theorem find?_references {m : M (ExclusiveRef n)}
    (h : KeyedMap.entries m = mapValues ExclusiveRef.mk slots) (key : κ) :
    KeyedMap.find? m key = (valueUnder? M slots key).map ExclusiveRef.mk := by
  rw [find?_eq_valueUnder?, h, valueUnder?_mapValues]

theorem sound_references (hslots : Unshared M slots) :
    (Keeping.byAddress : Keeping (Vector V n × M (ExclusiveRef n)) κ V).Sound M
      fun s => KeyedMap.entries s.2 = mapValues ExclusiveRef.mk slots := by
  refine sound_byAddress ?_
  rintro s key ⟨i⟩ hs hfind f
  have hreferences := (entries_modify_self hfind).trans hs
  rw [find?_references hs, Option.map_eq_some_iff] at hfind
  obtain ⟨_, hcell, href⟩ := hfind
  cases href
  refine ⟨hreferences, ?_⟩
  show mapValues _ (KeyedMap.entries (KeyedMap.modify s.2 key fun _ => ⟨i⟩)) =
    (Access.write key f).edit M (mapValues _ (KeyedMap.entries s.2))
  rw [hreferences, hs, mapValues_mapValues, mapValues_mapValues]
  exact mapValues_set hslots hcell s.1 f

/-! ## Cells -/

/-- A write changes the cell of its key, and no other. -/
theorem cells_access {s : Vector V n × M (ExclusiveRef n)}
    (hs : KeyedMap.entries s.2 = mapValues ExclusiveRef.mk slots) (a : Access κ V) :
    KeyedMap.entries (Keeping.byAddress.access s a).2.2 = mapValues ExclusiveRef.mk slots ∧
      ∀ i : Fin n, (Keeping.byAddress.access s a).2.1[i] =
        a.change (fun key => valueUnder? M slots key = some i) s.1[i] := by
  cases a with
  | look key => exact ⟨hs, fun i => rfl⟩
  | write key f =>
    rw [Keeping.access, Keeping.write?_byAddress]
    cases hcell : valueUnder? M slots key with
    | none =>
      have hfind : KeyedMap.find? s.2 key = none := by rw [find?_references hs, hcell]; rfl
      rw [hfind]
      refine ⟨hs, ?_⟩
      intro i
      rw [Access.change, hcell]
      rfl
    | some j =>
      have hfind : KeyedMap.find? s.2 key = some ⟨j⟩ := by rw [find?_references hs, hcell]; rfl
      rw [hfind]
      refine ⟨(entries_modify_self hfind).trans hs, ?_⟩
      intro i
      show (s.1.set j (f s.1[j]))[i] = _
      rw [Access.change, hcell, Fin.getElem_fin, Vector.getElem_set]
      by_cases hji : j = i
      · subst hji
        simp
      · have hne : (j : Nat) ≠ i := Fin.val_ne_of_ne hji
        simp [hne, hji]

theorem cells_after {s : Vector V n × M (ExclusiveRef n)}
    (hs : KeyedMap.entries s.2 = mapValues ExclusiveRef.mk slots) (accesses : List (Access κ V)) :
    KeyedMap.entries (Keeping.byAddress.after s accesses).2 = mapValues ExclusiveRef.mk slots ∧
      ∀ i : Fin n, (Keeping.byAddress.after s accesses).1[i] =
        changed (fun key => valueUnder? M slots key = some i) accesses s.1[i] := by
  induction accesses generalizing s with
  | nil => exact ⟨hs, fun i => rfl⟩
  | cons a accesses ih =>
    obtain ⟨hnext, hcells⟩ := cells_access hs a
    obtain ⟨hafter, hafterCells⟩ := ih hnext
    refine ⟨hafter, ?_⟩
    intro i
    refine (hafterCells i).trans ?_
    rw [hcells i]
    rfl

end

end

/-! ## Agreement -/

/-- Cells hold the values of some entries, each in a place of its own. -/
structure Refers (cells : Vector V n) (places : List (κ × Fin n)) (entries : List (κ × V)) :
    Prop where
  nodup : (places.map (·.2)).Nodup
  followed : mapValues (fun i => cells[i]) places = entries

/-- The values of any entries can be laid out in cells. -/
theorem exists_refers (entries : List (κ × V)) :
    ∃ (n : Nat) (cells : Vector V n) (places : List (κ × Fin n)), Refers cells places entries := by
  refine ⟨entries.length, .ofFn fun i => entries[i].2,
    (List.finRange entries.length).map fun i => (entries[i].1, i), ?_, ?_⟩
  · rw [List.map_map]
    exact (List.nodup_finRange _).map fun _ _ h => h
  · rw [mapValues, List.map_map]
    refine List.ext_getElem (by simp) ?_
    intro i _ _
    simp

/-- **Maps of values, of boxes and of references agree.**  Let a map of any lawful kind be built
from a list of entries, in which keys may come several times, and so a map of boxes of the values,
and a map of references to cells in which the values are; such cells there are for all entries
(`exists_refers`).  Then

* a key has the value of the last entry with this key;
* any accesses come to the same in all three maps, and after each of them the maps show the same
  entries: what they come to on the list of the entries, where a write changes the value of its key
  alone;
* under a key that is in none of the entries there is never anything to be found or written to;
* the references stay, and in each cell there is in the end what the writes make of its value whose
  keys have this cell for their last.  Other cells are as they were. -/
theorem accesses_agree [KeyedMap M κ] [LawfulKeyedMap M κ] [LawfulBuilding M κ]
    {entries : List (κ × V)} {cells : Vector V n} {places : List (κ × Fin n)}
    (h : Refers cells places entries) (accesses : List (Access κ V)) :
    let values : M V := KeyedMap.ofList entries
    let boxes : Unit × M (Boxed V) := ((), KeyedMap.ofList (mapValues Boxed.mk entries))
    let references : Vector V n × M (ExclusiveRef n) :=
      (cells, KeyedMap.ofList (mapValues ExclusiveRef.mk places))
    let shown := KeyedMap.entries values
    let last := Keeping.byAddress.after references accesses
    (∀ key, valueUnder? M shown key = lastUnder? M entries key) ∧
    (Keeping.byAddress.shown boxes = shown ∧ Keeping.byAddress.shown references = shown) ∧
    (Keeping.byValue.reports values accesses = told M shown accesses ∧
      Keeping.byAddress.reports boxes accesses = told M shown accesses ∧
      Keeping.byAddress.reports references accesses = told M shown accesses) ∧
    (∀ key, lastUnder? M entries key = none →
      Keeping.byValue.Lacks (Keeping.byValue.after values accesses) key ∧
      Keeping.byAddress.Lacks (Keeping.byAddress.after boxes accesses) key ∧
      Keeping.byAddress.Lacks last key) ∧
    KeyedMap.entries last.2 = KeyedMap.entries references.2 ∧
    (∀ i : Fin n, last.1[i] =
      changed (fun key => lastUnder? M places key = some i) accesses cells[i]) ∧
    (∀ i : Fin n, (∀ key f, .write key f ∈ accesses → lastUnder? M places key ≠ some i) →
      last.1[i] = cells[i]) := by
  intro values boxes references shown last
  have hlast : ∀ key, valueUnder? M shown key = lastUnder? M entries key :=
    fun key => (find?_eq_valueUnder? _ _).symm.trans (LawfulBuilding.find?_ofList _ _)
  let slots := KeyedMap.entries (KeyedMap.ofList places : M (Fin n))
  have hslots : ∀ key, valueUnder? M slots key = lastUnder? M places key :=
    fun key => (find?_eq_valueUnder? _ _).symm.trans (LawfulBuilding.find?_ofList _ _)
  have hreferences : KeyedMap.entries references.2 = mapValues ExclusiveRef.mk slots :=
    LawfulBuilding.entries_ofList_mapValues _ _
  have hboxesShown : Keeping.byAddress.shown boxes = shown := by
    show mapValues Boxed.content (KeyedMap.entries boxes.2) = _
    rw [LawfulBuilding.entries_ofList_mapValues, mapValues_mapValues]
    exact List.map_id _
  have hreferencesShown : Keeping.byAddress.shown references = shown := by
    show mapValues _ (KeyedMap.entries references.2) =
      KeyedMap.entries (KeyedMap.ofList entries : M V)
    rw [hreferences, mapValues_mapValues, ← h.followed, LawfulBuilding.entries_ofList_mapValues]
    rfl
  have hsound : (Keeping.byAddress : Keeping (Vector V n × M (ExclusiveRef n)) κ V).Sound M _ :=
    sound_references (unshared_ofList h.nodup)
  obtain ⟨hafter, hcells⟩ := cells_after hreferences accesses
  simp only [hslots] at hcells
  refine ⟨hlast, ⟨hboxesShown, hreferencesShown⟩, ⟨?_, ?_, ?_⟩, ?_, hafter.trans hreferences.symm,
    hcells, ?_⟩
  · exact sound_byValue.reports_eq trivial accesses
  · rw [sound_boxes.reports_eq trivial, hboxesShown]
  · rw [hsound.reports_eq hreferences, hreferencesShown]
  · intro key hnone
    rw [← hlast] at hnone
    refine ⟨sound_byValue.lacks_after trivial hnone accesses,
      sound_boxes.lacks_after trivial ?_ accesses, hsound.lacks_after hreferences ?_ accesses⟩
    · rwa [hboxesShown]
    · rwa [hreferencesShown]
  · intro i hnot
    rw [hcells i]
    exact changed_of_forall_not (fun key f hmem => decide_eq_false (hnot key f hmem)) _

/-- Two letters come to share a key, and the cell of the first is out of reach.  A letter that is
not there is neither found nor put there. -/
theorem accesses_agree_letters :
    let cells : Vector Nat 4 := #v[10, 20, 30, 40]
    let places : List (Char × Fin 4) := [('a', 0), ('b', 1), ('a', 2)]
    let entries := [('a', 10), ('b', 20), ('a', 30)]
    let accesses : List (Access Char Nat) :=
      [.write 'a' (· + 5), .look 'c', .write 'c' (· + 1), .write 'b' fun _ => 9, .look 'a']
    let sorted : SortedMap Char (ExclusiveRef 4) := .ofList (mapValues ExclusiveRef.mk places)
    let unordered : UnorderedMap Char (ExclusiveRef 4) :=
      KeyedMap.ofList (mapValues ExclusiveRef.mk places)
    Refers cells places entries ∧
      Keeping.byValue.reports (SortedMap.ofList entries) accesses =
        Keeping.byAddress.reports (cells, sorted) accesses ∧
      (Keeping.byAddress.reports (cells, unordered) accesses).map (·.1) =
        [.written true, .found none, .written false, .written true, .found (some 35)] ∧
      (Keeping.byAddress.after (cells, unordered) accesses).1[0] = 10 ∧
      (Keeping.byAddress.after (cells, unordered) accesses).1[2] = 35 := by
  intro cells places entries accesses sorted unordered
  have hrefers : Refers cells places entries := ⟨by decide, by decide⟩
  obtain ⟨-, -, ⟨hvalues, -, hreferences⟩, -⟩ :=
    accesses_agree (M := SortedMap Char) hrefers accesses
  obtain ⟨-, -, ⟨-, -, htold⟩, -, -, hcells, -⟩ :=
    accesses_agree (M := UnorderedMap Char) hrefers accesses
  exact ⟨hrefers, hvalues.trans hreferences.symm, (congrArg (List.map Prod.fst) htold).trans rfl,
    (hcells 0).trans rfl, (hcells 2).trans rfl⟩

end Sortition

import Mathlib.Algebra.Ring.Nat
import Mathlib.Data.List.Basic
import Sortition.Keyed.Operations
import Sortition.Proofs.Erasing

/-!
# Removing pairs from a multimap, one after the other

`erasePairs` runs through a list of removals and collects how many values each of them took.  A
bucket can be cut down several times, and it can vanish half way, so that a later removal under its
key meets a map without it; another may be empty from the start, and vanishes only if a removal
comes by.  Values are compared by any test `==`, which need not hold of a value and itself.

In the end none of that matters.

* `restOf removals key` says what a list of removals, taken as a whole, leaves of a bucket.
* `restOf_cons` is the step: a removal and then the others leave what all of them leave.  Its cases
  are those of the first removal: it passes the bucket by, it empties it, or it leaves something.
* `entries_erasePairs` and `find?_erasePairs` follow by induction on the removals.
* `erasePairs_closed_form` is the main statement.  As `restOf` is about the removals as a bag, their
  order is of no consequence.

All is proved from the laws of `LawfulKeyedMap`, for sorted maps and unordered ones alike.
-/

set_option autoImplicit false

namespace Sortition

open LawfulKeyedMap (same)

variable {M : Type → Type} {κ β : Type} [KeyedMap M κ] [BEq β]

/-- Remove pairs in turn: how many values each removal took, and the multimap after the last. -/
def erasePairs (m : M (Array β)) : List (κ × β) → List Nat × M (Array β)
  | [] => ([], m)
  | (key, value) :: removals =>
    let (erased, next) := erasePair m key value
    let (counts, last) := erasePairs next removals
    (erased :: counts, last)

/-- How many pairs of a key and a value there are. -/
def pairCount (m : M (Array β)) : Nat := ((KeyedMap.entries m).map fun entry => entry.2.size).sum

/-! ## One bucket -/

theorem eraseFromBucket_eq (value : β) (bucket : Array β) :
    eraseFromBucket value bucket = bucket.filter fun b => !(b == value) := by
  refine Array.ext' ?_
  have hsift := siftM_pure (m := Id) (fun b => b == value) bucket.toList
  rw [Array.toList_filter]
  exact (LawfulErasable.toList_eraseIfM (m := Id) _ bucket).trans hsift

theorem size_eraseFromBucket_le (value : β) (bucket : Array β) :
    (eraseFromBucket value bucket).size ≤ bucket.size := by
  rw [eraseFromBucket_eq]
  exact Array.size_filter_le

variable [LawfulKeyedMap M κ]

section

variable (M)

/-- Some removal is of a pair with this key. -/
def visits (removals : List (κ × β)) (key : κ) : Bool := removals.any fun r => same M r.1 key

/-- No removal is of a pair with this key and a value that the given one equals. -/
def spares (removals : List (κ × β)) (key : κ) (b : β) : Bool :=
  removals.all fun r => !(same M r.1 key && b == r.2)

/-- What several removals leave of the bucket under a key.  A bucket that is not visited stays as it
is, also if it is empty; of a visited one, there stay the values that are spared, unless there are
none. -/
def restOf (removals : List (κ × β)) (key : κ) (bucket : Array β) : Option (Array β) :=
  if visits M removals key then
    if (bucket.filter (spares M removals key)).isEmpty then none
    else some (bucket.filter (spares M removals key))
  else some bucket

end

theorem spares_of_not_visits {removals : List (κ × β)} {key : κ}
    (h : visits M removals key = false) (b : β) : spares M removals key b = true := by
  rw [visits, List.any_eq_false] at h
  rw [spares, List.all_eq_true]
  intro r hmem
  simp [h r hmem]

theorem restOf_singleton {key k : κ} (value : β) (bucket : Array β) :
    restOf M [(key, value)] k bucket =
      if same M key k then
        if (eraseFromBucket value bucket).isEmpty then none
        else some (eraseFromBucket value bucket)
      else some bucket := by
  rw [restOf, visits, List.any_cons, List.any_nil, Bool.or_false]
  split
  · rename_i h
    have hspares : spares M [(key, value)] k = fun b => !(b == value) := by
      funext b
      simp [spares, h]
    rw [hspares, eraseFromBucket_eq]
  · rfl

/-- **One removal and then the others leave what all of them leave.** -/
theorem restOf_cons (r : κ × β) (removals : List (κ × β)) (key : κ) (bucket : Array β) :
    restOf M (r :: removals) key bucket =
      (restOf M [r] key bucket).bind (restOf M removals key) := by
  have hspares : bucket.filter (spares M (r :: removals) key) =
      (bucket.filter (spares M [r] key)).filter (spares M removals key) := by
    rw [Array.filter_filter]
    congr 1
    funext b
    simp [spares, Bool.and_comm]
  have hvisits : visits M (r :: removals) key = (visits M [r] key || visits M removals key) := by
    simp [visits]
  rw [restOf, hspares, hvisits]
  cases hfirst : visits M [r] key with
  | false =>
    have hall : bucket.filter (spares M [r] key) = bucket :=
      Array.filter_eq_self.2 fun b _ => spares_of_not_visits hfirst b
    simp [restOf, hfirst, hall]
  | true =>
    rw [restOf, hfirst]
    generalize bucket.filter (spares M [r] key) = rest
    cases hempty : rest.isEmpty with
    | true =>
      obtain rfl : rest = #[] := Array.isEmpty_iff.1 hempty
      rfl
    | false =>
      -- a bucket that is not visited again is not cut down again
      cases hvisits : visits M removals key with
      | true => simp [restOf, hvisits]
      | false =>
        have hall : rest.filter (spares M removals key) = rest :=
          Array.filter_eq_self.2 fun b _ => spares_of_not_visits hvisits b
        simp [restOf, hempty, hvisits, hall]

/-- Only which buckets are visited and which values are spared matters. -/
theorem restOf_ext {removals others : List (κ × β)} {key k : κ}
    (hvisits : visits M others key = visits M removals k)
    (hspares : ∀ b, spares M others key b = spares M removals k b) :
    restOf M others key = restOf M removals k := by
  funext bucket
  rw [restOf, restOf, hvisits, funext hspares]

/-- The order of the removals does not matter. -/
theorem restOf_perm {removals others : List (κ × β)} (h : others.Perm removals) :
    restOf M others = restOf M removals :=
  funext fun _ => restOf_ext h.any_eq fun _ => h.all_eq

/-- Nor does it matter whether a removal is made twice. -/
theorem restOf_twice (r : κ × β) : restOf M [r, r] = restOf M [r] := by
  funext key
  refine restOf_ext ?_ fun b => ?_
  · simp [visits]
  · simp [spares]

/-- Equal keys have the same fate. -/
theorem restOf_congr {key k : κ} (h : same M key k = true) (removals : List (κ × β)) :
    restOf M removals key = restOf M removals k := by
  refine restOf_ext ?_ fun b => ?_
  · simp only [visits, LawfulKeyedMap.same_congr h]
  · simp only [spares, LawfulKeyedMap.same_congr h]

/-! ## One removal -/

/-- What a removal does: nothing if the key is missing, and otherwise it cuts one bucket down, which
is dropped if that leaves it empty. -/
theorem erasePair_cases (m : M (Array β)) (key : κ) (value : β) :
    ((∀ entry ∈ KeyedMap.entries m, same M key entry.1 = false) ∧ erasePair m key value = (0, m)) ∨
    ∃ before k bucket after, LawfulKeyedMap.FoundAt m key before k bucket after ∧
      (erasePair m key value).1 = bucket.size - (eraseFromBucket value bucket).size ∧
      KeyedMap.entries (erasePair m key value).2 =
        before ++ (if (eraseFromBucket value bucket).isEmpty then []
          else [(k, eraseFromBucket value bucket)]) ++ after := by
  cases hfind : KeyedMap.find? m key with
  | none => exact .inl ⟨LawfulKeyedMap.find?_eq_none hfind, by rw [erasePair, hfind]⟩
  | some bucket =>
    obtain ⟨before, k, after, hfound⟩ := LawfulKeyedMap.exists_foundAt hfind
    refine .inr ⟨before, k, bucket, after, hfound, by rw [erasePair, hfind], ?_⟩
    rw [erasePair, hfind]
    dsimp only
    split
    · rw [hfound.entries_erase, List.append_nil]
    · rw [hfound.entries_modify, List.append_assoc, List.singleton_append]

variable (M) in
/-- What several removals leave of an entry. -/
def entryRest (removals : List (κ × β)) (entry : κ × Array β) : Option (κ × Array β) :=
  (restOf M removals entry.1 entry.2).map fun rest => (entry.1, rest)

theorem entryRest_of_not_same {key : κ} (value : β) {entry : κ × Array β}
    (h : same M key entry.1 = false) : entryRest M [(key, value)] entry = some entry := by
  rw [entryRest, restOf_singleton, h]
  rfl

theorem filterMap_entryRest_of_not_same {key : κ} (value : β) {entries : List (κ × Array β)}
    (h : ∀ entry ∈ entries, same M key entry.1 = false) :
    entries.filterMap (entryRest M [(key, value)]) = entries := by
  rw [List.filterMap_congr fun entry hmem => entryRest_of_not_same value (h entry hmem),
    List.filterMap_some]

theorem entries_erasePair (m : M (Array β)) (key : κ) (value : β) :
    KeyedMap.entries (erasePair m key value).2 =
      (KeyedMap.entries m).filterMap (entryRest M [(key, value)]) := by
  obtain ⟨hmissing, heq⟩ | ⟨before, k, bucket, after, hfound, -, heq⟩ :=
    erasePair_cases m key value
  · rw [heq, filterMap_entryRest_of_not_same value hmissing]
  · obtain ⟨hbefore, hafter⟩ := List.forall_mem_append.1 hfound.others
    rw [heq, hfound.entries_eq, List.filterMap_append, List.filterMap_cons,
      filterMap_entryRest_of_not_same value hbefore, filterMap_entryRest_of_not_same value hafter,
      entryRest, restOf_singleton, if_pos hfound.same_key, List.append_assoc]
    split <;> rfl

/-- The removal counts the pairs that are gone. -/
theorem pairCount_erasePair (m : M (Array β)) (key : κ) (value : β) :
    (erasePair m key value).1 + pairCount (erasePair m key value).2 = pairCount m := by
  obtain ⟨-, heq⟩ | ⟨before, k, bucket, after, hfound, hcount, heq⟩ := erasePair_cases m key value
  · rw [heq, Nat.zero_add]
  · have hle := size_eraseFromBucket_le value bucket
    -- a bucket that is dropped has no values left, and so it counts for nothing
    have hrest : ((if (eraseFromBucket value bucket).isEmpty then []
        else [(k, eraseFromBucket value bucket)]).map fun entry => entry.2.size).sum =
          (eraseFromBucket value bucket).size := by
      split
      · rename_i hempty
        rw [Array.isEmpty_iff.1 hempty]
        rfl
      · exact Nat.add_zero _
    rw [pairCount, pairCount, hcount, heq, hfound.entries_eq]
    simp only [List.map_append, List.map_cons, List.sum_append, List.sum_cons, hrest]
    omega

/-! ## Many removals -/

theorem entries_erasePairs (m : M (Array β)) (removals : List (κ × β)) :
    KeyedMap.entries (erasePairs m removals).2 =
      (KeyedMap.entries m).filterMap (entryRest M removals) := by
  induction removals generalizing m with
  | nil => exact List.filterMap_some.symm
  | cons r removals ih =>
    have hrest : entryRest M (r :: removals) =
        fun entry => (entryRest M [r] entry).bind (entryRest M removals) := by
      funext entry
      simp only [entryRest, restOf_cons r removals, Option.map_bind, Option.bind_map,
        Function.comp_def]
    rw [erasePairs, ih, entries_erasePair, List.filterMap_filterMap, hrest]

theorem sum_erasePairs (m : M (Array β)) (removals : List (κ × β)) :
    (erasePairs m removals).1.sum + pairCount (erasePairs m removals).2 = pairCount m := by
  induction removals generalizing m with
  | nil => exact Nat.zero_add _
  | cons r removals ih =>
    rw [← pairCount_erasePair m r.1 r.2, ← ih (erasePair m r.1 r.2).2, ← Nat.add_assoc]
    rfl

theorem find?_filterMap_entryRest {key : κ} (removals : List (κ × β))
    {entries : List (κ × Array β)} (h : ∀ entry ∈ entries, same M key entry.1 = false) :
    (entries.filterMap (entryRest M removals)).find? (fun entry => same M key entry.1) = none := by
  refine List.find?_eq_none.2 fun left hmem => ?_
  obtain ⟨entry, hentry, hleft⟩ := List.mem_filterMap.1 hmem
  obtain ⟨rest, -, rfl⟩ := Option.map_eq_some_iff.1 hleft
  simpa using h entry hentry

/-- What is found under a key after removals is what they leave of what was found there. -/
theorem find?_erasePairs (m : M (Array β)) (removals : List (κ × β)) (key : κ) :
    KeyedMap.find? (erasePairs m removals).2 key =
      (KeyedMap.find? m key).bind (restOf M removals key) := by
  rw [LawfulKeyedMap.find?_eq, entries_erasePairs]
  cases hfind : KeyedMap.find? m key with
  | none =>
    rw [find?_filterMap_entryRest removals (LawfulKeyedMap.find?_eq_none hfind)]
    rfl
  | some bucket =>
    obtain ⟨before, k, after, hfound⟩ := LawfulKeyedMap.exists_foundAt hfind
    obtain ⟨hbefore, hafter⟩ := List.forall_mem_append.1 hfound.others
    rw [hfound.entries_eq, List.filterMap_append, List.find?_append,
      find?_filterMap_entryRest removals hbefore, Option.none_or, List.filterMap_cons, entryRest,
      ← restOf_congr hfound.same_key, Option.bind_some]
    cases restOf M removals key bucket with
    | none => exact congrArg _ (find?_filterMap_entryRest removals hafter)
    | some rest => simp [hfound.same_key]

variable (M) in
theorem entryRest_eq {removals others : List (κ × β)} (h : restOf M others = restOf M removals) :
    entryRest M others = entryRest M removals := by
  funext entry
  rw [entryRest, entryRest, h]

/-- Lists of removals that leave the same of every bucket take the same number of values. -/
theorem sum_erasePairs_congr (m : M (Array β)) {removals others : List (κ × β)}
    (h : restOf M others = restOf M removals) :
    (erasePairs m others).1.sum = (erasePairs m removals).1.sum := by
  have hcount : pairCount (erasePairs m others).2 = pairCount (erasePairs m removals).2 := by
    rw [pairCount, pairCount, entries_erasePairs, entries_erasePairs, entryRest_eq M h]
  have hothers := sum_erasePairs m others
  have hremovals := sum_erasePairs m removals
  omega

/-- To repeat a removal takes nothing and changes nothing. -/
theorem erasePair_twice (m : M (Array β)) (key : κ) (value : β) :
    (erasePair (erasePair m key value).2 key value).1 = 0 ∧
      KeyedMap.entries (erasePair (erasePair m key value).2 key value).2 =
        KeyedMap.entries (erasePair m key value).2 := by
  have htwice := restOf_twice (M := M) (key, value)
  constructor
  · have hsum := sum_erasePairs_congr m htwice
    simp only [erasePairs, List.sum_cons, List.sum_nil] at hsum
    omega
  · have hentries := entries_erasePairs m [(key, value), (key, value)]
    rw [entryRest_eq M htwice, ← entries_erasePairs] at hentries
    exact hentries

/-- **Removals in closed form.**  After any removals, one after the other,

* the entries are those of the beginning, in their order, each with what the removals leave of its
  bucket, and without those of which nothing is left: no key has been added, and what is found under
  any key is what the removals leave of what was found there before;
* the removals have counted the pairs that are gone;
* in any other order they would have led to the same entries and the same total;
* and to repeat a removal takes nothing and changes nothing. -/
theorem erasePairs_closed_form (m : M (Array β)) (removals : List (κ × β)) :
    KeyedMap.entries (erasePairs m removals).2 =
        (KeyedMap.entries m).filterMap (entryRest M removals) ∧
      (∀ key, KeyedMap.find? (erasePairs m removals).2 key =
        (KeyedMap.find? m key).bind (restOf M removals key)) ∧
      (erasePairs m removals).1.sum + pairCount (erasePairs m removals).2 = pairCount m ∧
      (∀ others : List (κ × β), others.Perm removals →
        KeyedMap.entries (erasePairs m others).2 = KeyedMap.entries (erasePairs m removals).2 ∧
          (erasePairs m others).1.sum = (erasePairs m removals).1.sum) ∧
      ∀ key value,
        let once := (erasePair (erasePairs m removals).2 key value).2
        (erasePair once key value).1 = 0 ∧
          KeyedMap.entries (erasePair once key value).2 = KeyedMap.entries once := by
  refine ⟨entries_erasePairs m removals, find?_erasePairs m removals, sum_erasePairs m removals,
    fun others hperm => ⟨?_, sum_erasePairs_congr m (restOf_perm hperm)⟩, erasePair_twice _⟩
  rw [entries_erasePairs, entries_erasePairs, entryRest_eq M (restOf_perm hperm)]

/-- A measurement, which may be missing; one that is missing equals nothing. -/
inductive Reading
  | missing
  | known (n : Nat)
deriving DecidableEq

instance : BEq Reading where
  beq
    | .known a, .known b => a == b
    | _, _ => false

theorem erasePairs_closed_form_readings :
    let m : SortedMap Nat (Array Reading) :=
      .ofList [(1, #[.known 5, .missing, .known 6, .known 5]), (2, #[]), (3, #[]), (4, #[.known 6])]
    let removals : List (Nat × Reading) :=
      [(1, .known 5), (2, .known 6), (4, .known 6), (1, .missing), (7, .known 5), (4, .known 6)]
    removals.reverse.Perm removals ∧
      KeyedMap.entries (erasePairs m removals.reverse).2 =
        KeyedMap.entries (erasePairs m removals).2 ∧
      KeyedMap.entries (erasePairs m removals).2 = [(1, #[.missing, .known 6]), (3, #[])] ∧
      (erasePairs m removals).1 = [2, 0, 1, 0, 0, 0] := by
  intro m removals
  have hperm : removals.reverse.Perm removals := List.reverse_perm removals
  exact ⟨hperm, ((erasePairs_closed_form m removals).2.2.2.1 _ hperm).1, by decide, by decide⟩

end Sortition

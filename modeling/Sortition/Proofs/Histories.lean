import Sortition.Container.Sorted
import Sortition.Proofs.Trimming

/-!
# Histories of a container

A container is cut down again and again: by a predicate, to a random selection, or by the one and
then the other.  Its `history` lists what became of it at every step, down to the step that stopped
with a fault, if there is one: the elements, the source, and what the predicates remember.

Two containers with the same elements have the same history, whatever they are (`history_toList`).
For a sorted map that is not obvious, since it is taken apart and built anew from the entries that
are left at every step, and entries with one key would be merged.  `history_sortedMap` is the main
statement: the map has the history of the array of its entries.
-/

set_option autoImplicit false

namespace Sortition

variable {C α σ τ : Type}

/-! ## Cuts -/

/-- The ways to cut a container down.  The predicates share a memory of type `τ`. -/
inductive Cut (τ α : Type)
  /-- Remove the elements for which the answer is `true`. -/
  | erase (p : α → StateM τ Bool)
  /-- Leave at most `k` elements, chosen at random. -/
  | trim (k : Nat)
  /-- Leave the elements that are accepted, and of those at most `k`, if `k` is not zero. -/
  | trimIf (p : α → StateM τ Bool) (k : Nat)

namespace Cut

/-- Cut a container down. -/
def apply [Erasable C α] [Source σ] (c : C) : Cut τ α → DrawT σ (StateM τ) C
  | erase p => .ask (Erasable.eraseIfM p c)
  | trim k => .ofDraw (Sortition.trim k c)
  | trimIf p k => Sortition.trimIf p k c

/-- The same cut with a predicate that writes down what it is asked. -/
def noting : Cut τ α → Cut (Noted τ α) α
  | erase p => erase (Sortition.noting p)
  | trim k => trim k
  | trimIf p k => trimIf (Sortition.noting p) k

theorem toList_apply [Erasable C α] [LawfulErasable C α] [Source σ] (cut : Cut τ α) (c : C) :
    Sequence.toList <$> (cut.apply c : DrawT σ (StateM τ) C) = cut.apply (Sequence.toList c) := by
  cases cut with
  | erase p =>
    rw [apply, apply, DrawT.map_ask, LawfulErasable.toList_eraseIfM, eraseIfM_list]
  | trim k => rw [apply, apply, DrawT.map_ofDraw, toList_trim]
  | trimIf p k => exact toList_trimIf p k c

end Cut

/-! ## Histories -/

/-- What became of a container at a step: its elements, unless there was a fault, the source, and
what the predicates remember. -/
structure Moment (σ τ α : Type) where
  outcome : Except Fault (List α)
  source : σ
  memory : τ

/-- What becomes of a container at each of several cuts, until one of them stops with a fault. -/
def history [Erasable C α] [Source σ] : List (Cut τ α) → C → σ → τ → List (Moment σ τ α)
  | [], _, _, _ => []
  | cut :: cuts, c, source, memory =>
    match ((cut.apply c).runFrom source).run memory with
    | ((.ok c, source), memory) =>
      ⟨.ok (Sequence.toList c), source, memory⟩ :: history cuts c source memory
    | ((.error fault, source), memory) => [⟨.error fault, source, memory⟩]

/-- **A container has the history of the list of its elements.** -/
theorem history_toList [Erasable C α] [LawfulErasable C α] [Source σ] (cuts : List (Cut τ α))
    (c : C) (source : σ) (memory : τ) :
    history cuts c source memory = history cuts (Sequence.toList c) source memory := by
  induction cuts generalizing c source memory with
  | nil => rfl
  | cons cut cuts ih =>
    have hrun : (((cut.apply (Sequence.toList c)).runFrom source).run memory) = _ :=
      congrArg (fun d => (d.runFrom source).run memory) (cut.toList_apply c).symm
    rw [DrawT.runFrom_map, StateT.run_map] at hrun
    -- after the step the two are the same container and its list again
    rw [history, history, hrun]
    rcases ((cut.apply c).runFrom source).run memory with ⟨⟨_ | c, source⟩, memory⟩
    · rfl
    · exact congrArg (_ :: ·) (ih c source memory)

theorem sublist_of_apply [Source σ] {cut : Cut τ α} {items left : List α} {s s' : σ}
    {memory memory' : τ}
    (h : ((cut.apply items).runFrom s).run memory = ((.ok left, s'), memory')) :
    left.Sublist items := by
  cases cut with
  | erase p =>
    rw [Cut.apply, eraseIfM_list, DrawT.runFrom_ask, StateT.run_map] at h
    cases h
    exact sublist_siftM _ _ _
  | trim k =>
    rw [Cut.apply, DrawT.runFrom_ofDraw] at h
    exact sublist_of_trim (congrArg Prod.fst h)
  | trimIf p k =>
    rw [Cut.apply, runFrom_trimIf_list, StateT.run_map] at h
    have haccepted := sublist_siftM p items memory
    by_cases hk : k = 0
    · simp only [hk, if_true] at h
      cases h
      exact haccepted
    · simp only [hk, if_false] at h
      exact (sublist_of_trim (congrArg Prod.fst h)).trans haccepted

/-- What a container is at any moment of its history is a part of what it was. -/
theorem sublist_of_mem_history [Source σ] {cuts : List (Cut τ α)} {items left : List α}
    {source : σ} {memory : τ} {moment : Moment σ τ α}
    (hmem : moment ∈ history cuts items source memory) (hleft : moment.outcome = .ok left) :
    left.Sublist items := by
  induction cuts generalizing items source memory with
  | nil => simp [history] at hmem
  | cons cut cuts ih =>
    rw [history] at hmem
    split at hmem
    · rename_i rest source' memory' hrun
      have hrest : rest.Sublist items := sublist_of_apply hrun
      rcases List.mem_cons.1 hmem with rfl | hmem
      · cases hleft
        exact hrest
      · exact (ih hmem).trans hrest
    · rw [List.mem_singleton.1 hmem] at hleft
      cases hleft

/-! ## Sorted maps -/

/-- **A sorted map has the history of the array of its entries.**  After every cut they have the
same entries, or both have stopped with the same fault; the predicates have noted the same questions
and remember the same; the source has noted the same requests and is the same.  At every moment the
keys of the entries are strictly ascending, and the entries are among the first ones; so a map that
is built anew from some of them has just these. -/
theorem history_sortedMap {κ ν : Type} [Ord κ] [Std.TransOrd κ] [Source σ]
    (cuts : List (Cut τ (κ × ν))) (m : SortedMap κ ν) (r : Recorded σ) (memory : τ) :
    let noted := cuts.map Cut.noting
    history noted m r ⟨memory, []⟩ = history noted m.entries.toArray r ⟨memory, []⟩ ∧
      (∀ moment ∈ history noted m r ⟨memory, []⟩, ∀ left, moment.outcome = .ok left →
        Ascending left ∧ left.Sublist m.entries) ∧
      ∀ kept : List (κ × ν), kept.Sublist m.entries → (SortedMap.ofList kept).entries = kept := by
  intro noted
  refine ⟨?_, fun moment hmem left hleft => ?_, fun kept hkept => ?_⟩
  · rw [history_toList noted m, history_toList noted m.entries.toArray]
    rfl
  · rw [history_toList] at hmem
    have hsub : left.Sublist m.entries := sublist_of_mem_history hmem hleft
    exact ⟨m.ascending.sublist hsub, hsub⟩
  · exact SortedMap.entries_ofList (m.ascending.sublist hkept)

/-- Removes the second entry it is asked about, of all cuts. -/
def dropSecond (_ : Nat × Char) : StateM Nat Bool := fun asked => (asked == 1, asked + 1)

theorem history_sortedMap_letters :
    let m : SortedMap Nat Char := .ofList [(7, 'g'), (1, 'a'), (4, 'd'), (3, 'c'), (1, 'b')]
    let r : Recorded Script := ⟨⟨[2, 2, 1, 0, 0]⟩, []⟩
    let noted := [.erase dropSecond, .trim 2, .trim 0].map Cut.noting
    Std.TransOrd Nat ∧
      history noted m r ⟨0, []⟩ = history noted m.entries.toArray r ⟨0, []⟩ ∧
      (history noted m r ⟨0, []⟩).map (·.outcome) =
        [.ok [(1, 'b'), (4, 'd'), (7, 'g')], .ok [(1, 'b'), (7, 'g')], .error .keptTooMany] := by
  intro m r noted
  exact ⟨inferInstance, (history_sortedMap _ m r 0).1, rfl⟩

end Sortition

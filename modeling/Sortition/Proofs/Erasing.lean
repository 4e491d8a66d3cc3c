import Sortition.Container.Deque

/-!
# What erasing asks, and what it leaves

Three loops erase: one exchanges survivors with what is in their way and cuts off the rest, one
takes elements out where they stand while the storage shrinks under its position, one takes a list
apart and links a new one.  This module says that nothing of that can be observed.

A predicate that has a state can be observed to be asked twice, not at all, or in another order.  So
the questions are part of every statement here.  They are those of `List.mapM`, which asks about the
items of a list once each, from the first to the last, and gives the list of the answers; what is
left is then a matter of the answers alone, `marked`.

* `marked marks items` are the items that carry a mark.
* `toList_eraseIfM_eq_mapM` says it for every container, over every monad: erasing asks what
  `List.mapM` asks, and leaves the items that were not to be removed.
* `noting p` is a predicate or a weight function `p` that also writes down what it is asked.
* `Strategy` lists the ways to erase from an array, a deque or a list, and `strategies_agree` is the
  main statement: each of them leaves the same items, has the predicate write down the same
  questions, and leaves it in the same state.
-/

set_option autoImplicit false

namespace Sortition

variable {α : Type}

/-! ## Marked items -/

/-- The items that carry a mark, in their order.  An item behind the last of the marks carries
none. -/
def marked : List Bool → List α → List α
  | mark :: marks, item :: items => if mark then item :: marked marks items else marked marks items
  | _, _ => []

theorem marked_sublist : ∀ (marks : List Bool) (items : List α), (marked marks items).Sublist items
  | [], items => by simp [marked]
  | _ :: _, [] => by simp [marked]
  | mark :: marks, item :: items => by
    have ih := marked_sublist marks items
    rw [marked]
    split
    · exact ih.cons_cons item
    · exact ih.cons item

/-- With a mark for every item, as many are left as the marks say. -/
theorem length_marked : ∀ {marks : List Bool} {items : List α}, marks.length = items.length →
    (marked marks items).length = marks.count true
  | [], _, _ => by simp [marked]
  | mark :: marks, item :: items, h => by
    have ih : (marked marks items).length = marks.count true := length_marked (by simpa using h)
    cases mark <;> simp [marked, ih]

theorem marked_map {β : Type} (f : α → β) : ∀ (marks : List Bool) (items : List α),
    marked marks (items.map f) = (marked marks items).map f
  | [], _ => by simp [marked]
  | _ :: _, [] => by simp [marked]
  | mark :: marks, item :: items => by
    rw [List.map_cons, marked, marked, marked_map f marks items]
    cases mark <;> rfl

/-- The marked positions are those of the marks. -/
theorem mem_marked_range {marks : List Bool} {i : Nat} :
    i ∈ marked marks (List.range marks.length) ↔ marks[i]? = some true := by
  induction marks generalizing i with
  | nil => simp [marked]
  | cons mark marks ih =>
    rw [List.length_cons, List.range_succ_eq_map, marked, marked_map]
    cases i <;> cases mark <;> simp [ih]

/-- Every item stands at its position. -/
theorem map_some_eq_map_range (items : List α) :
    items.map some = (List.range items.length).map fun i => items[i]? := by
  refine List.ext_getElem (by simp) fun i hi _ => ?_
  rw [List.length_map] at hi
  simp [hi]

/-- The marked items stand at the marked positions. -/
theorem map_some_marked (marks : List Bool) (items : List α) :
    (marked marks items).map some =
      (marked marks (List.range items.length)).map fun i => items[i]? := by
  rw [← marked_map, ← marked_map, map_some_eq_map_range]

/-- Items that differ from each other show which of them were marked. -/
theorem eq_of_marked_eq {marks marks' : List Bool} {items : List α} (hnodup : items.Nodup)
    (h : marks.length = items.length) (h' : marks'.length = items.length)
    (heq : marked marks items = marked marks' items) : marks = marks' := by
  induction items generalizing marks marks' with
  | nil => rw [List.eq_nil_of_length_eq_zero h, List.eq_nil_of_length_eq_zero h']
  | cons item items ih =>
    obtain ⟨mark, marks, rfl⟩ := List.exists_cons_of_length_eq_add_one h
    obtain ⟨mark', marks', rfl⟩ := List.exists_cons_of_length_eq_add_one h'
    obtain ⟨hitem, hnodup⟩ := List.nodup_cons.1 hnodup
    have hnot : ∀ others, item ∉ marked others items := fun others hmem =>
      hitem ((marked_sublist others items).subset hmem)
    have htail : marked marks items = marked marks' items → marks = marks' :=
      ih hnodup (by simpa using h) (by simpa using h')
    cases mark <;> cases mark' <;> simp only [marked, if_true, Bool.false_eq_true, if_false] at heq
    · rw [htail heq]
    · exact absurd (heq ▸ List.mem_cons_self) (hnot marks)
    · exact absurd (heq ▸ List.mem_cons_self) (hnot marks')
    · rw [htail (List.cons.inj heq).2]

/-! ## The questions of a removal -/

section

variable {m : Type → Type} [Monad m] [LawfulMonad m]

/-- Sifting with a condition that has no effect is filtering. -/
theorem siftM_pure (p : α → Bool) (items : List α) :
    siftM (refuse fun a => (pure (p a) : m Bool)) items = pure (items.filter fun a => !p a) := by
  induction items with
  | nil => rfl
  | cons item items ih =>
    rw [siftM, ih, List.filter_cons]
    simp [refuse]

/-- Sifting asks what `List.mapM` asks, and keeps the items with a positive answer. -/
theorem siftM_eq_mapM (keep : α → m Bool) (items : List α) :
    siftM keep items = (marked · items) <$> items.mapM keep := by
  induction items with
  | nil => simp [siftM, marked]
  | cons item items ih =>
    rw [siftM, List.mapM_cons, ih]
    simp [marked]

theorem mapM_refuse (p : α → m Bool) (items : List α) :
    items.mapM (refuse p) = List.map not <$> items.mapM p := by
  induction items with
  | nil => simp
  | cons item items ih =>
    rw [List.mapM_cons, List.mapM_cons, ih]
    simp [refuse]

theorem siftM_refuse_eq_mapM (p : α → m Bool) (items : List α) :
    siftM (refuse p) items = (fun answers => marked (answers.map not) items) <$> items.mapM p := by
  rw [siftM_eq_mapM, mapM_refuse, Functor.map_map]

theorem sublist_siftM {τ : Type} (keep : α → StateM τ Bool) (items : List α) (memory : τ) :
    ((siftM keep items).run memory).1.Sublist items := by
  rw [siftM_eq_mapM, StateT.run_map]
  exact marked_sublist _ items

/-- **Erasing asks about every element once, in order.**  What it leaves are the elements for which
the answer was not to remove them. -/
theorem toList_eraseIfM_eq_mapM {C : Type} [Erasable C α] [LawfulErasable C α] (p : α → m Bool)
    (c : C) : Sequence.toList <$> Erasable.eraseIfM p c =
      (fun answers => marked (answers.map not) (Sequence.toList c)) <$>
        (Sequence.toList c).mapM p := by
  rw [LawfulErasable.toList_eraseIfM, siftM_refuse_eq_mapM]

end

/-! ## Predicates that remember -/

section

variable {τ β : Type}

theorem run_mapM_cons (p : α → StateM τ β) {item : α} {memory memory' : τ} {answer : β}
    (h : (p item).run memory = (answer, memory')) (items : List α) :
    ((item :: items).mapM p).run memory =
      (answer :: ((items.mapM p).run memory').1, ((items.mapM p).run memory').2) := by
  rw [List.mapM_cons, StateT.run_bind, h]
  rfl

/-- There is one answer for each item. -/
theorem length_run_mapM (p : α → StateM τ β) (items : List α) (memory : τ) :
    ((items.mapM p).run memory).1.length = items.length := by
  induction items generalizing memory with
  | nil => rfl
  | cons item items ih =>
    rw [run_mapM_cons p rfl]
    exact congrArg (· + 1) (ih _)

end

/-- What a predicate remembers, and the items it was asked about, in order. -/
structure Noted (τ α : Type) where
  memory : τ
  asked : List α

/-- The same predicate, or weight function, writing down what it is asked. -/
def noting {τ β : Type} (p : α → StateM τ β) (a : α) : StateM (Noted τ α) β := fun noted =>
  let (answer, memory) := (p a).run noted.memory
  (answer, ⟨memory, noted.asked ++ [a]⟩)

/-- Asked about a list of items, the predicate answers and remembers as without the notes, and notes
the list. -/
theorem run_mapM_noting {τ β : Type} (p : α → StateM τ β) (items : List α)
    (noted : Noted τ α) : (items.mapM (noting p)).run noted =
      (((items.mapM p).run noted.memory).1,
        ⟨((items.mapM p).run noted.memory).2, noted.asked ++ items⟩) := by
  induction items generalizing noted with
  | nil => simp; rfl
  | cons item items ih =>
    have hasked : noted.asked ++ item :: items = noted.asked ++ [item] ++ items := by simp
    rw [List.mapM_cons, List.mapM_cons, hasked]
    simp only [bind_pure_comp, StateT.run_bind, StateT.run_map, ih]
    rfl

/-! ## The strategies -/

/-- The ways to erase from an array, a deque or a list. -/
inductive Strategy
  /-- Compaction of an array. -/
  | compactArray
  /-- Compaction of a deque. -/
  | compactDeque
  /-- Taking elements of an array out where they stand. -/
  | dropArray
  /-- Taking elements of a deque out where they stand. -/
  | dropDeque
  /-- Linking the survivors of a list to a new one. -/
  | relinkList
  /-- The way that arrays choose for themselves. -/
  | ownArray
  /-- The way that deques choose for themselves. -/
  | ownDeque
  /-- The way that lists choose for themselves. -/
  | ownList
deriving DecidableEq, Repr

namespace Strategy

/-- What is left of the items of a deque, however its two halves share them, and of an array and a
list of the same items. -/
def left {m : Type → Type} [Monad m] (p : α → m Bool) (d : Deque α) : Strategy → m (List α)
  | compactArray => Sequence.toList <$> compactM p d.toList.toArray
  | compactDeque => Sequence.toList <$> compactM p d
  | dropArray => Sequence.toList <$> dropM p d.toList.toArray
  | dropDeque => Sequence.toList <$> dropM p d
  | relinkList => relinkM p d.toList
  | ownArray => Sequence.toList <$> Erasable.eraseIfM p d.toList.toArray
  | ownDeque => Sequence.toList <$> Erasable.eraseIfM p d
  | ownList => Sequence.toList <$> Erasable.eraseIfM p d.toList

theorem left_eq_siftM {m : Type → Type} [Monad m] [LawfulMonad m] (p : α → m Bool) (d : Deque α)
    (how : Strategy) : how.left p d = siftM (refuse p) d.toList := by
  cases how with
  | compactArray => exact toList_compactM p d.toList.toArray
  | compactDeque => exact toList_compactM p d
  | dropArray => exact toList_dropM p d.toList.toArray
  | dropDeque => exact toList_dropM p d
  | relinkList => exact relinkM_eq p d.toList
  | ownArray => exact LawfulErasable.toList_eraseIfM p d.toList.toArray
  | ownDeque => exact LawfulErasable.toList_eraseIfM p d
  | ownList => exact LawfulErasable.toList_eraseIfM p d.toList

end Strategy

/-- **All strategies agree.**  Whatever the items, and whatever a predicate answers and remembers
from whatever state, each strategy leaves the items for which the answer was not to remove them, in
their order; the predicate has been asked about the items once each, in their order, and remembers
what it remembers after these questions. -/
theorem strategies_agree {τ : Type} (p : α → StateM τ Bool) (memory : τ) (d : Deque α)
    (how : Strategy) :
    (how.left (noting p) d).run ⟨memory, []⟩ =
      (marked (((d.toList.mapM p).run memory).1.map not) d.toList,
        ⟨((d.toList.mapM p).run memory).2, d.toList⟩) := by
  rw [how.left_eq_siftM, siftM_refuse_eq_mapM, StateT.run_map, run_mapM_noting, List.nil_append]
  rfl

end Sortition

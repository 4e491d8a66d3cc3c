import Mathlib.Data.Multiset.Filter
import Sortition.Container.Unordered
import Sortition.Proofs.Filtering

/-!
# Containers without an order of their own

An unordered container is iterated in an order that means nothing and that may be another one after
every change.  An unordered map is even taken apart at every removal, and the entries that are left
are put into a new map, where an entry could get lost, or take the place of another.

* `bag` is what such a container holds, apart from the order.
* `Unordered` is the law of these containers: for every order of iteration, erasing leaves in the
  bag what sifting the elements leaves that are iterated in this order.  That every rearrangement of
  the elements is an order of iteration is a part of it.
* `bag_trim` is for these containers what `toList_trim` is for the ordered ones: they are trimmed as
  the list is in which they are iterated.
* `erase_trim_unordered` is the main statement.

It is about every container that is `Unordered`; unordered sets and unordered maps are.
-/

set_option autoImplicit false

namespace Sortition

variable {C α σ τ : Type}

/-- The elements of a container, whatever their order. -/
def bag [Sequence C α] (c : C) : Multiset α := ↑(Sequence.toList c)

/-- Containers that hold elements with different keys and iterate them in any order. -/
class Unordered (C : Type) (α : outParam Type) [Erasable C α] extends LawfulSequence C α where
  /-- Two elements have equal keys. -/
  sameKey : α → α → Bool
  distinct : ∀ c : C, (Sequence.toList c).Pairwise fun a b => sameKey a b = false
  exists_order : ∀ (c : C) (order : List α), order.Perm (Sequence.toList c) →
    ∃ c' : C, Sequence.toList c' = order
  bag_eraseIfM : ∀ {m : Type → Type} [Monad m] [LawfulMonad m] (p : α → m Bool) (c : C),
    bag <$> Erasable.eraseIfM p c =
      (fun left : List α => (left : Multiset α)) <$> siftM (refuse p) (Sequence.toList c)

/-! ## Sets and maps -/

/-- Any rearrangement of a list is what some layout makes of it. -/
theorem Layout.exists_arrange {items order : List α} (h : order.Perm items) :
    ∃ layout : Layout α, layout.arrange items = order := by
  classical
  refine ⟨⟨fun others => if others = items then order else others, fun others => ?_⟩, if_pos rfl⟩
  split
  · rename_i heq
    rw [heq]
    exact h
  · exact .refl _

section

variable [Key α]

theorem UnorderedSet.bag_eq (s : UnorderedSet α) : bag s = s.items :=
  Multiset.coe_eq_coe.2 (s.layout.perm s.items)

instance : Unordered (UnorderedSet α) α where
  sameKey := Key.same
  distinct s := s.distinct_toList
  exists_order s order h := by
    obtain ⟨layout, harrange⟩ := Layout.exists_arrange (h.trans (s.layout.perm s.items))
    exact ⟨⟨s.items, layout, s.distinct⟩, harrange⟩
  bag_eraseIfM p s := by
    have hitems := UnorderedSet.items_eraseIfM p s
    rw [funext UnorderedSet.bag_eq]
    exact (Functor.map_map ..).symm.trans (congrArg _ hitems)

end

section

variable {κ ν : Type} [Key κ]

theorem UnorderedMap.bag_eq (m : UnorderedMap κ ν) : bag m = m.entries :=
  Multiset.coe_eq_coe.2 (m.layout.perm m.entries)

instance : Unordered (UnorderedMap κ ν) (κ × ν) where
  sameKey a b := Key.same a.1 b.1
  distinct m := m.distinct_toList
  exists_order m order h := by
    obtain ⟨layout, harrange⟩ := Layout.exists_arrange (h.trans (m.layout.perm m.entries))
    exact ⟨⟨m.entries, layout, m.distinct⟩, harrange⟩
  bag_eraseIfM p m := by
    have hentries := UnorderedMap.entries_eraseIfM p m
    rw [funext UnorderedMap.bag_eq]
    refine (Functor.map_map ..).symm.trans ((congrArg _ hentries).trans ?_)
    rw [Functor.map_map]
    -- the entries that are left stand in the map the other way round
    exact congrArg (· <$> _) (funext fun left => Multiset.coe_reverse left)

end

/-! ## What is left in the bag -/

section

variable [Erasable C α] [Unordered C α]

theorem card_bag (c : C) : (bag c).card = Sequence.size c :=
  (LawfulSequence.size_eq c).symm

/-- A predicate is asked about every element once, in the order of iteration, and those are left for
which the answer was not to remove them. -/
theorem exists_erased (p : α → StateM τ Bool) (c : C) (memory : τ) : ∃ left : C,
    (Erasable.eraseIfM (noting p) c).run ⟨memory, []⟩ =
        (left, ⟨(((Sequence.toList c).mapM p).run memory).2, Sequence.toList c⟩) ∧
      bag left =
        marked ((((Sequence.toList c).mapM p).run memory).1.map not) (Sequence.toList c) := by
  have hbag := Unordered.bag_eraseIfM (noting p) c
  obtain ⟨left, hrun, hleft⟩ := exists_run_of_map hbag ⟨memory, []⟩
  rw [siftM_refuse_eq_mapM, Functor.map_map, StateT.run_map, run_mapM_noting, List.nil_append]
    at hrun hleft
  exact ⟨left, hrun, hleft⟩

/-- Without a state in the predicate, the order of iteration is of no consequence. -/
theorem bag_eraseIf (p : α → Bool) (c : C) :
    bag (Erasable.eraseIf p c) = (bag c).filter fun a => !p a := by
  have hbag := Unordered.bag_eraseIfM (m := Id) (fun a => pure (p a)) c
  have hfilter : (bag c).filter (fun a => !p a) =
      ((Sequence.toList c).filter fun a => !p a : List α) := by
    simp [bag]
  rw [siftM_pure] at hbag
  exact hbag.trans hfilter.symm

/-- **An unordered container is trimmed as the list is in which it is iterated.** -/
theorem bag_trim [Source σ] (k : Nat) (c : C) :
    bag <$> (trim k c : Draw σ C) =
      (fun left : List α => (left : Multiset α)) <$> trim k (Sequence.toList c) := by
  rw [trim_list, trim, LawfulSequence.size_eq]
  split
  · rw [map_pure, map_pure]
    rfl
  · rw [map_run', map_run', Unordered.bag_eraseIfM]

/-- With answers in range, as many elements are left as there may be. -/
theorem exists_trim_unordered [Source σ] {k : Nat} {c : C} {r : Recorded σ}
    (h : Honest (trimRequests k (Sequence.size c)) r.source) :
    ∃ (left : C) (after : Recorded σ), (trim k c).runFrom r = (.ok left, after) ∧
      after.requests = r.requests ++ trimRequests k (Sequence.size c) ∧
      bag left ≤ bag c ∧ Sequence.size left = min (Sequence.size c) k := by
  rw [LawfulSequence.size_eq] at h ⊢
  obtain ⟨kept, after, hrun, hrequests, hsub, hlength⟩ := exists_trim_list h
  have hbag := DrawT.runFrom_map_of_ok (fun left : List α => (left : Multiset α)) hrun
  rw [← bag_trim] at hbag
  obtain ⟨left, hleft, heq⟩ := DrawT.exists_of_runFrom_map hbag
  refine ⟨left, after, hleft, hrequests, ?_, ?_⟩
  · rw [heq]
    exact Multiset.coe_le.2 hsub.subperm
  · rw [← card_bag, heq, ← hlength]
    rfl

/-- **Nothing gets lost in a container without an order.**  Every rearrangement of the elements is
an order in which they may be iterated; and in whatever order they are,

* erasing asks about every element once, in that order, and leaves those for which the answer was
  not to remove them, just as they were and with no two keys equal;
* without a state in the predicate, what it leaves is a matter of what there is, not of the order;
* with answers in range, trimming leaves as many of the elements as there may be;
* filtered trimming asks about every element once, in that order, and leaves those that matched, if
  there is no limit, and otherwise, with answers in range, as many of them as there may be. -/
theorem erase_trim_unordered [Source σ] (p : α → StateM τ Bool) (k : Nat) (c : C) (r : Recorded σ)
    (memory : τ) :
    let items := Sequence.toList c
    let told := (items.mapM p).run memory
    let matching := marked told.1 items
    let filtered := ((trimIf (noting p) k c).runFrom r).run ⟨memory, []⟩
    (∀ order : List α, order.Perm items → ∃ c' : C, Sequence.toList c' = order) ∧
      (∃ left : C, (Erasable.eraseIfM (noting p) c).run ⟨memory, []⟩ = (left, ⟨told.2, items⟩) ∧
        bag left = marked (told.1.map not) items ∧
        (Sequence.toList left).Pairwise fun a b => Unordered.sameKey C a b = false) ∧
      (∀ q : α → Bool, bag (Erasable.eraseIf q c) = (bag c).filter fun a => !q a) ∧
      (Honest (trimRequests k (Sequence.size c)) r.source →
        ∃ (left : C) (after : Recorded σ), (trim k c).runFrom r = (.ok left, after) ∧
          bag left ≤ bag c ∧ Sequence.size left = min (Sequence.size c) k) ∧
      filtered.2 = ⟨told.2, items⟩ ∧
      (k = 0 → ∃ left : C, filtered.1 = (.ok left, r) ∧ bag left = matching) ∧
      (k ≠ 0 → Honest (trimRequests k matching.length) r.source →
        ∃ (left : C) (after : Recorded σ), filtered.1 = (.ok left, after) ∧
          bag left ≤ matching ∧ Sequence.size left = min matching.length k) := by
  intro items told matching filtered
  obtain ⟨erased, herase, herased⟩ := exists_erased p c memory
  obtain ⟨accepted, haccept, haccepted⟩ :=
    exists_accepted memory (Unordered.bag_eraseIfM (refuse (noting p)) c)
  have hfiltered : filtered = (if k = 0 then (.ok accepted, r) else (trim k accepted).runFrom r,
      ⟨told.2, items⟩) := by
    simp only [filtered, runFrom_trimIf, StateT.run_map, haccept]
    rfl
  have hsize : Sequence.size accepted = matching.length := by
    rw [← card_bag, haccepted]
    rfl
  refine ⟨Unordered.exists_order c, ⟨erased, herase, herased, Unordered.distinct erased⟩,
    fun q => bag_eraseIf q c, fun hhonest => ?_, by rw [hfiltered], fun hk => ?_,
    fun hk hhonest => ?_⟩
  · obtain ⟨left, after, hrun, -, hle, hleft⟩ := exists_trim_unordered hhonest
    exact ⟨left, after, hrun, hle, hleft⟩
  · exact ⟨accepted, by rw [hfiltered, if_pos hk], haccepted⟩
  · rw [← hsize] at hhonest ⊢
    obtain ⟨left, after, hrun, -, hle, hleft⟩ := exists_trim_unordered hhonest
    rw [haccepted] at hle
    exact ⟨left, after, by rw [hfiltered, if_neg hk, hrun], hle, hleft⟩

/-- The layout that shows the elements the other way round. -/
def Layout.lastFirst : Layout α := ⟨List.reverse, List.reverse_perm⟩

theorem erase_trim_unordered_letters :
    let m : UnorderedMap Nat Char :=
      .ofList .lastFirst [(5, 'e'), (2, 'b'), (3, 'c'), (1, 'a'), (4, 'd')]
    let r : Recorded Script := ⟨⟨[3, 1, 1]⟩, []⟩
    let filtered := ((trimIf (noting everyOther) 2 m).runFrom r).run ⟨0, []⟩
    Honest (trimRequests 2 3) r.source ∧
      filtered.2.asked = [(5, 'e'), (2, 'b'), (3, 'c'), (1, 'a'), (4, 'd')] ∧
      ∃ (left : UnorderedMap Nat Char) (after : Recorded Script), filtered.1 = (.ok left, after) ∧
        bag left ≤ ([(5, 'e'), (3, 'c'), (4, 'd')] : List (Nat × Char)) ∧
        left.entries.length = 2 := by
  intro m r filtered
  have hhonest : Honest (trimRequests 2 3) r.source :=
    ⟨3, _, rfl, by decide, 1, _, rfl, by decide, 1, _, rfl, by decide, trivial⟩
  obtain ⟨-, -, -, -, hnoted, -, htrimmed⟩ := erase_trim_unordered everyOther 2 m r 0
  obtain ⟨left, after, hrun, hle, hlength⟩ := htrimmed (by decide) hhonest
  exact ⟨hhonest, congrArg Noted.asked hnoted, left, after, hrun, hle, hlength⟩

end

end Sortition

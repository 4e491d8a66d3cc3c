import Sortition.Container.Sorted
import Sortition.Proofs.Trimming

/-!
# Filtered trimming

`trimIf` is two passes.  The first removes what a predicate does not accept, and so it asks the
opposite of what it is given; the second trims what the first has left, and the numbers that it
draws depend on how many elements that is.  A limit of zero leaves the second pass out, while
trimming to zero would leave nothing.

* `runFrom_trimIf` takes the two apart, for every container and over every monad that the predicate
  may live in: all that happens in that monad happens before the source comes in.
* `exists_accepted` is about the first pass, `exists_trim_list` about the second.
* `trimIf_exact` is the main statement.
-/

set_option autoImplicit false

namespace Sortition

variable {C α σ τ : Type}

/-! ## The first pass -/

/-- Where a view of the result of a run is known, there is a result with this view. -/
theorem exists_run_of_map {β : Type} {f : C → β} {x : StateM τ C} {y : StateM τ β}
    (h : f <$> x = y) (memory : τ) :
    ∃ c : C, x.run memory = (c, (y.run memory).2) ∧ f c = (y.run memory).1 := by
  subst h
  exact ⟨(x.run memory).1, rfl, rfl⟩

theorem run_siftM_noting (p : α → StateM τ Bool) (items : List α) (memory : τ) :
    (siftM (noting p) items).run ⟨memory, []⟩ =
      (marked ((items.mapM p).run memory).1 items, ⟨((items.mapM p).run memory).2, items⟩) := by
  rw [siftM_eq_mapM, StateT.run_map, run_mapM_noting, List.nil_append]
  rfl

/-- **The first pass asks about every element once, in order, and leaves those with a positive
answer.**  What is known of erasing from the container is known through some view of it: the list of
its elements, or less. -/
theorem exists_accepted {β : Type} [Erasable C α] {view : C → β} {f : List α → β}
    {p : α → StateM τ Bool} {c : C} (memory : τ)
    (h : view <$> Erasable.eraseIfM (refuse (noting p)) c =
      f <$> siftM (refuse (refuse (noting p))) (Sequence.toList c)) :
    ∃ accepted : C,
      (Erasable.eraseIfM (refuse (noting p)) c).run ⟨memory, []⟩ =
        (accepted, ⟨(((Sequence.toList c).mapM p).run memory).2, Sequence.toList c⟩) ∧
      view accepted =
        f (marked (((Sequence.toList c).mapM p).run memory).1 (Sequence.toList c)) := by
  obtain ⟨accepted, hrun, haccepted⟩ := exists_run_of_map h ⟨memory, []⟩
  rw [refuse_refuse, StateT.run_map, run_siftM_noting] at hrun haccepted
  exact ⟨accepted, hrun, haccepted⟩

/-! ## The second pass -/

/-- What trimming `n` elements to `k` asks for. -/
def trimRequests (k n : Nat) : List Request := if n ≤ k then [] else countdown n

/-- With answers in range, as many elements are left as there may be, and not more than there
were. -/
theorem exists_trim_list [Source σ] {k : Nat} {items : List α} {r : Recorded σ}
    (h : Honest (trimRequests k items.length) r.source) :
    ∃ (left : List α) (after : Recorded σ), (trim k items).runFrom r = (.ok left, after) ∧
      after.requests = r.requests ++ trimRequests k items.length ∧
      left.Sublist items ∧ left.length = min items.length k := by
  rw [trimRequests] at h ⊢
  by_cases hle : items.length ≤ k
  · rw [trim_list, if_pos hle, if_pos hle, List.append_nil]
    exact ⟨items, r, rfl, rfl, .refl _, by omega⟩
  · rw [if_neg hle] at h ⊢
    obtain ⟨answers, s', hanswered, hfits⟩ := h.exists_answered
    refine ⟨_, _, runFrom_trim_list (by omega) (hanswered.recorded r.latestFirst)
      (not_overdraws_of_fits hfits), by simp [Recorded.requests], marked_sublist _ _, ?_⟩
    rw [length_marked_marksOf hfits (by omega)]
    omega

/-! ## Both passes -/

/-- **Filtered trimming is filtering, and then trimming.**  The predicate is asked about every
element once, in order; and as it has been asked about all of them also where the source stops at
its first request, it is asked before anything is drawn.  Let `accepted` be a container of the same
kind with the elements that were accepted, in their order.

* If the limit is zero, it is the result, and the source is as it was.
* Otherwise what comes of it, be it a container or a fault, and what has been requested, is what
  comes of trimming `accepted`, and they would be the same elements for any other such container.
* If `accepted` is within a limit that is not zero, it is the result, and nothing is requested.
* And if the answers to such a limit are in range, there is no fault, and as many of the accepted
  elements are left, in their order, as there may be. -/
theorem trimIf_exact [Source σ] [Erasable C α] [LawfulErasable C α] (p : α → StateM τ Bool)
    (k : Nat) (c : C) (r : Recorded σ) (memory : τ) :
    let told := ((Sequence.toList c).mapM p).run memory
    let ran := ((trimIf (noting p) k c).runFrom r).run ⟨memory, []⟩
    let stopped := ((trimIf (noting p) k c).runFrom (⟨[]⟩ : Script)).run ⟨memory, []⟩
    ∃ accepted : C, Sequence.toList accepted = marked told.1 (Sequence.toList c) ∧
      ran.2 = ⟨told.2, Sequence.toList c⟩ ∧ stopped.2 = ⟨told.2, Sequence.toList c⟩ ∧
      (k = 0 → ran.1 = (.ok accepted, r)) ∧
      (k ≠ 0 → ran.1 = (trim k accepted).runFrom r ∧
        ∀ other : C, Sequence.toList other = Sequence.toList accepted →
          (Sequence.toList <$> trim k other : Draw (Recorded σ) (List α)) =
            Sequence.toList <$> trim k accepted) ∧
      (k ≠ 0 → Sequence.size accepted ≤ k → ran.1 = (.ok accepted, r)) ∧
      (k ≠ 0 → Honest (trimRequests k (Sequence.size accepted)) r.source →
        ∃ (left : C) (after : Recorded σ), ran.1 = (.ok left, after) ∧
          after.requests = r.requests ++ trimRequests k (Sequence.size accepted) ∧
          (Sequence.toList left).Sublist (Sequence.toList accepted) ∧
          (Sequence.toList left).length = min (Sequence.size accepted) k) := by
  intro told ran stopped
  have hlist := LawfulErasable.toList_eraseIfM (refuse (noting p)) c
  rw [← id_map (siftM _ _)] at hlist
  obtain ⟨accepted, herase, haccepted⟩ := exists_accepted memory hlist
  have hran : ran = (if k = 0 then (.ok accepted, r) else (trim k accepted).runFrom r,
      ⟨told.2, Sequence.toList c⟩) := by
    simp only [ran, runFrom_trimIf, StateT.run_map, herase]
    rfl
  have hstopped : stopped.2 = ⟨told.2, Sequence.toList c⟩ := by
    simp only [stopped, runFrom_trimIf, StateT.run_map, herase]
    rfl
  have htrim (hk : k ≠ 0) : ran.1 = (trim k accepted).runFrom r := by rw [hran, if_neg hk]
  refine ⟨accepted, haccepted, by rw [hran], hstopped, fun hk => by rw [hran, if_pos hk],
    fun hk => ⟨htrim hk, fun other heq => ?_⟩, fun hk hle => ?_, fun hk hhonest => ?_⟩
  · rw [toList_trim, toList_trim, heq]
  · rw [htrim hk, trim, if_pos hle]
    rfl
  · rw [LawfulSequence.size_eq] at hhonest ⊢
    obtain ⟨left, after, hrun, hrequests, hsub, hlength⟩ := exists_trim_list hhonest
    rw [← toList_trim] at hrun
    obtain ⟨left, hleft, rfl⟩ := DrawT.exists_of_runFrom_map hrun
    exact ⟨left, after, (htrim hk).trans hleft, hrequests, hsub, hlength⟩

/-- Accepts every other one of the letters that it is asked about, and counts them. -/
def everyOther (_ : Nat × Char) : StateM Nat Bool := fun asked => (asked % 2 == 0, asked + 1)

/-- Of five entries three are accepted, and two of these are left. -/
theorem trimIf_exact_letters :
    let m : SortedMap Nat Char := .ofList [(9, 'e'), (3, 'b'), (1, 'a'), (5, 'c'), (7, 'd')]
    let r : Recorded Script := ⟨⟨[3, 2, 1]⟩, []⟩
    let ran := ((trimIf (noting everyOther) 2 m).runFrom r).run ⟨0, []⟩
    Honest (trimRequests 2 3) r.source ∧
      ran.2.asked = [(1, 'a'), (3, 'b'), (5, 'c'), (7, 'd'), (9, 'e')] ∧
      ∃ (left : SortedMap Nat Char) (after : Recorded Script), ran.1 = (.ok left, after) ∧
        after.requests = [.uniform 1 3, .uniform 1 2, .uniform 1 1] ∧
        left.entries.Sublist [(1, 'a'), (5, 'c'), (9, 'e')] ∧ left.entries.length = 2 := by
  intro m r ran
  obtain ⟨accepted, haccepted, hnoted, -, -, -, -, htrimmed⟩ := trimIf_exact everyOther 2 m r 0
  have hlist : Sequence.toList accepted = [(1, 'a'), (5, 'c'), (9, 'e')] := haccepted
  have hsize : Sequence.size accepted = 3 := congrArg List.length hlist
  have hhonest : Honest (trimRequests 2 (Sequence.size accepted)) r.source := by
    rw [hsize]
    exact ⟨3, _, rfl, by decide, 2, _, rfl, by decide, 1, _, rfl, by decide, trivial⟩
  obtain ⟨left, after, hrun, hrequests, hsub, hlength⟩ := htrimmed (by decide) hhonest
  rw [hsize] at hhonest hrequests hlength
  rw [hlist] at hsub
  exact ⟨hhonest, congrArg Noted.asked hnoted, left, after, hrun, hrequests, hsub, hlength⟩

end Sortition

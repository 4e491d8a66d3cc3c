import Sortition.Container.Deque
import Sortition.Proofs.Trimming

/-!
# Trimming by answers that nobody has checked

A source that a caller has written may answer whatever it likes, and trimming does no more with an
answer than to compare it with the room that is left.  An answer above the range is then as good as
the highest of the range, as long as it is above the room too.  An answer below it can only be zero,
and a zero takes its element in any case.  That is of no consequence while there is room; where
there is none, the counter of the room is taken below zero, and that is a fault.

* `Overdraws` says of an answer that it does this, in terms of the marks before it.
* `runFrom_siftM_dropNext_of_overdraws` is the pass that ends with the fault.  The pass that ends
  without one is that of `runFrom_siftM_dropNext`, which asks of the answers only that none of them
  overdraws.
* `trim_unchecked` is the main statement.  The other counter, of the elements that are still to be
  seen, is never taken below zero.
-/

set_option autoImplicit false

namespace Sortition

variable {C α σ : Type}

/-- As long as no answer takes an item too many, there are no more marks than there is room. -/
theorem count_marksOf_le {room : Nat} {answers : List Nat}
    (h : ∀ i, ¬ Overdraws room answers (marksOf room answers) i) :
    (marksOf room answers).count true ≤ room := by
  induction answers generalizing room with
  | nil => exact Nat.zero_le room
  | cons drawn answers ih =>
    obtain ⟨hdrawn, hrest⟩ := not_overdraws_cons h
    have ih := ih hrest
    rw [marksOf, List.count_cons]
    by_cases hd : drawn ≤ room
    · simp only [hd, decide_true, Bool.toNat_true, beq_self_eq_true, if_true] at ih ⊢
      omega
    · simpa [hd] using ih

/-! ## The pass that stops -/

section

variable [Source σ]

theorem Quota.runFrom_dropNext_of_full {left : Nat} {s s' : σ}
    (hs : (Source.uniform 1 left).runFrom s = (.ok 0, s')) :
    (Quota.dropNext.run ⟨0, left⟩).runFrom s = (.error .keptTooMany, s') := by
  unfold Quota.dropNext
  rw [StateT.run, DrawT.runFrom_bind_of_ok hs]
  rfl

/-- **A pass stops at the answer that takes an item too many**, and what is behind that answer is
not asked for. -/
theorem runFrom_siftM_dropNext_of_overdraws : ∀ {items : List α} {answers : List Nat} {i : Nat}
    {s s' : σ} (room : Nat), Overdraws room answers (marksOf room answers) i →
      Answered ((countdown items.length).take (i + 1)) s (answers.take (i + 1)) s' →
      ((siftM (refuse fun _ => Quota.dropNext) items).run ⟨room, items.length⟩).runFrom s =
        (.error .keptTooMany, s')
  | _, [], _, _, _, _, ⟨hzero, _⟩, _ => by simp at hzero
  | [], drawn :: answers, _, _, _, _, _, h => by cases h
  | item :: items, drawn :: answers, 0, s, s', room, hover, .cons first (.nil _) => by
    obtain ⟨rfl, rfl⟩ := overdraws_zero_iff.1 hover
    have hnext : (Quota.dropNext.run ⟨0, items.length + 1⟩).runFrom s = _ :=
      Quota.runFrom_dropNext_of_full first
    simp only [siftM, refuse, bind_map_left, StateT.run_bind, List.length_cons]
    exact DrawT.runFrom_bind_of_error _ hnext
  | item :: items, drawn :: answers, i + 1, s, s', room, hover, .cons first rest => by
    obtain ⟨hdrawn, hover⟩ := overdraws_succ_iff.1 hover
    have hnext : (Quota.dropNext.run ⟨room, items.length + 1⟩).runFrom s = _ :=
      Quota.runFrom_dropNext hdrawn first
    have hrest := runFrom_siftM_dropNext_of_overdraws _ hover rest
    simp only [siftM, refuse, bind_map_left, StateT.run_bind, List.length_cons]
    rw [DrawT.runFrom_bind_of_ok hnext]
    exact DrawT.runFrom_bind_of_error _ hrest

variable [Erasable C α] [LawfulErasable C α]

theorem runFrom_trim_of_overdraws {c : C} {answers : List Nat} {i : Nat} {s s' : σ} {k : Nat}
    (hk : k < Sequence.size c) (hover : Overdraws k answers (marksOf k answers) i)
    (h : Answered ((countdown (Sequence.size c)).take (i + 1)) s (answers.take (i + 1)) s') :
    (trim k c).runFrom s = (.error .keptTooMany, s') := by
  rw [LawfulSequence.size_eq] at hk h
  have hpass := runFrom_siftM_dropNext_of_overdraws k hover h
  rw [← DrawT.runFrom_map_eq_error_iff (f := Sequence.toList), toList_trim, trim_list,
    if_neg (by omega), StateT.run'_eq]
  exact DrawT.runFrom_map_eq_error_iff.2 hpass

/-- With an answer that takes too much, nothing more is requested. -/
theorem exists_trim_of_overdraws {c : C} {answers : List Nat} {i : Nat} {r : Recorded σ} {s' : σ}
    {k : Nat} (hk : k < Sequence.size c) (hover : Overdraws k answers (marksOf k answers) i)
    (h : Answered ((countdown (Sequence.size c)).take answers.length) r.source answers s') :
    ∃ after : Recorded σ, (trim k c).runFrom r = (.error .keptTooMany, after) ∧
      after.requests = r.requests ++ (countdown (Sequence.size c)).take (i + 1) := by
  obtain ⟨hlt, -⟩ := List.getElem?_eq_some_iff.1 hover.1
  obtain ⟨s'', hfirst⟩ := h.take (i + 1)
  rw [List.take_take, Nat.min_eq_left hlt] at hfirst
  exact ⟨_, runFrom_trim_of_overdraws hk hover (hfirst.recorded r.latestFirst),
    by simp [Recorded.requests]⟩

/-- Without one, all is requested, and no more than `k` elements are left. -/
theorem exists_trim_of_not_overdraws {c : C} {answers : List Nat} {r : Recorded σ} {s' : σ}
    {k : Nat} (hk : k < Sequence.size c)
    (hroom : ∀ i, ¬ Overdraws k answers (marksOf k answers) i)
    (h : Answered (countdown (Sequence.size c)) r.source answers s') :
    ∃ (left : C) (after : Recorded σ), (trim k c).runFrom r = (.ok left, after) ∧
      after.source = s' ∧ after.requests = r.requests ++ countdown (Sequence.size c) ∧
      Sequence.toList left = marked (marksOf k answers) (Sequence.toList c) ∧
      (Sequence.toList left).Sublist (Sequence.toList c) ∧
      (Sequence.toList left).length ≤ k := by
  have hlength : (marksOf k answers).length = (Sequence.toList c).length := by
    rw [length_marksOf, h.length_eq, length_countdown, LawfulSequence.size_eq]
  obtain ⟨left, hrun, hleft⟩ := runFrom_trim hk (h.recorded r.latestFirst) hroom
  refine ⟨left, _, hrun, rfl, by simp [Recorded.requests], hleft, hleft ▸ marked_sublist _ _, ?_⟩
  rw [hleft, length_marked hlength]
  exact count_marksOf_le hroom

end

/-! ## All answers -/

/-- **Trimming by unchecked answers** keeps what it may keep, or stops where it would keep more.
Let a container have more than `k` elements, and let a source give any numbers whatsoever as
answers to the first requests of a countdown.  The rule of the quota marks the elements that they
keep.

* If there is an answer of zero behind exactly `k` marks, then there is the fault of the counter of
  the room, and the request for this answer was the last one.
* If the answers are as many as the elements, there is this fault only then; the counter of the
  elements is never at fault; and without a fault all requests were made and no others, and the
  marked elements are left, in their order, which are `k` at most. -/
theorem trim_unchecked [Source σ] [Erasable C α] [LawfulErasable C α] {k : Nat} {c : C}
    (hk : k < Sequence.size c) {r : Recorded σ} {answers : List Nat} {s' : σ}
    (h : Answered ((countdown (Sequence.size c)).take answers.length) r.source answers s') :
    let marks := marksOf k answers
    ByRule k answers marks ∧ marks.length = answers.length ∧
      (∀ i, Overdraws k answers marks i → ∃ after : Recorded σ,
        (trim k c).runFrom r = (.error .keptTooMany, after) ∧
        after.requests = r.requests ++ (countdown (Sequence.size c)).take (i + 1)) ∧
      (answers.length = Sequence.size c →
        ((∃ after, (trim k c).runFrom r = (.error .keptTooMany, after)) ↔
          ∃ i, Overdraws k answers marks i) ∧
        (∀ after, (trim k c).runFrom r ≠ (.error .shownTooMany, after)) ∧
        ((∀ i, ¬ Overdraws k answers marks i) → ∃ (left : C) (after : Recorded σ),
          (trim k c).runFrom r = (.ok left, after) ∧ after.source = s' ∧
          after.requests = r.requests ++ countdown (Sequence.size c) ∧
          Sequence.toList left = marked marks (Sequence.toList c) ∧
          (Sequence.toList left).Sublist (Sequence.toList c) ∧
          (Sequence.toList left).length ≤ k)) := by
  intro marks
  refine ⟨byRule_marksOf k answers, length_marksOf k answers,
    fun i hover => exists_trim_of_overdraws hk hover h, fun hlength => ?_⟩
  by_cases hsome : ∃ i, Overdraws k answers marks i
  · obtain ⟨i, hover⟩ := id hsome
    obtain ⟨after, hrun, -⟩ := exists_trim_of_overdraws hk hover h
    refine ⟨⟨fun _ => hsome, fun _ => ⟨after, hrun⟩⟩, fun _ hrun' => ?_,
      fun hroom => absurd hover (hroom i)⟩
    cases hrun.symm.trans hrun'
  · rw [hlength, List.take_of_length_le (Nat.le_of_eq (length_countdown _))] at h
    have hleft := exists_trim_of_not_overdraws hk (not_exists.1 hsome) h
    obtain ⟨left, after, hrun, -⟩ := id hleft
    refine ⟨⟨?_, fun hover => absurd hover hsome⟩, fun _ hrun' => ?_, fun _ => hleft⟩
    · rintro ⟨after', hrun'⟩
      cases hrun.symm.trans hrun'
    · cases hrun.symm.trans hrun'

/-- A zero for the second letter finds room, and one for the fourth does not; the script has no
answer for the fifth letter, and need not have one.  Numbers that are too high do not stop anything,
and with them only one letter is left. -/
theorem trim_unchecked_letters :
    let letters : Deque Char := ⟨#['b', 'a'], #['a', 'd', 'a']⟩
    let zeros : Recorded Script := ⟨⟨[1, 0, 7, 0]⟩, []⟩
    let high : Recorded Script := ⟨⟨[9, 0, 7, 6, 5]⟩, []⟩
    2 < Sequence.size letters ∧
      Answered ((countdown 5).take 4) zeros.source [1, 0, 7, 0] ⟨[]⟩ ∧
      Answered ((countdown 5).take 5) high.source [9, 0, 7, 6, 5] ⟨[]⟩ ∧
      (∃ after : Recorded Script, (trim 2 letters).runFrom zeros = (.error .keptTooMany, after) ∧
        after.requests = [.uniform 1 5, .uniform 1 4, .uniform 1 3, .uniform 1 2]) ∧
      ∃ (left : Deque Char) (after : Recorded Script),
        (trim 2 letters).runFrom high = (.ok left, after) ∧ after.requests = countdown 5 ∧
        Sequence.toList left = ['b'] := by
  intro letters zeros high
  have hsize : 2 < Sequence.size letters := by decide
  have hzeros : Answered ((countdown 5).take 4) zeros.source [1, 0, 7, 0] ⟨[]⟩ :=
    .cons rfl (.cons rfl (.cons rfl (.cons rfl (.nil _))))
  have hhigh : Answered ((countdown 5).take 5) high.source [9, 0, 7, 6, 5] ⟨[]⟩ :=
    .cons rfl (.cons rfl (.cons rfl (.cons rfl (.cons rfl (.nil _)))))
  have hroom : ∀ i, ¬ Overdraws 2 [9, 0, 7, 6, 5] (marksOf 2 [9, 0, 7, 6, 5]) i := by
    rintro (_ | _ | i) ⟨hzero, hcount⟩
    · cases hzero
    · cases hcount
    · have hmem : 0 ∈ [7, 6, 5] := List.mem_of_getElem? hzero
      simp at hmem
  obtain ⟨-, -, hover, -⟩ := trim_unchecked hsize
    (show Answered ((countdown 5).take [1, 0, 7, 0].length) zeros.source _ _ from hzeros)
  obtain ⟨-, -, -, hall⟩ := trim_unchecked hsize
    (show Answered ((countdown 5).take [9, 0, 7, 6, 5].length) high.source _ _ from hhigh)
  obtain ⟨-, -, hleft⟩ := hall rfl
  obtain ⟨left, after, hrun, -, hrequests, hlist, -⟩ := hleft hroom
  exact ⟨hsize, hzeros, hhigh, hover 3 ⟨rfl, rfl⟩, left, after, hrun, hrequests, hlist⟩

end Sortition

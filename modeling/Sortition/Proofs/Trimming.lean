import Sortition.Container.Deque
import Sortition.Proofs.Erasing
import Sortition.Proofs.Requests
import Sortition.Trim

/-!
# What trimming leaves

Trimming is one pass over a container with a counter that every draw changes, and it is made while
the container is being rearranged.  Here it is taken apart.

* **The container.**  `toList_trim` and `toList_trimIf` say that a container is trimmed as the list
  of its elements is, whatever its way of erasing, so that only lists remain.
* **The requests.**  A pass over `n` items makes the requests of `countdown n`, whatever the
  answers.
* **The marks.**  Which items are left is a function of the answers, `marksOf k`: an item is marked
  if the number drawn for it does not exceed what the marks before it have left of `k`.  `ByRule` is
  that sentence, and `runFrom_siftM_dropNext` says that the pass follows it, unless an answer
  `Overdraws` the room.  A positive answer cannot.
* **The count.**  With answers in range, the room that is left never exceeds the number of items
  that are still to be seen, and so the marks are exactly `k` in number (`count_marksOf`).

The main statement is `trim_exact`.  It is about every container that erases lawfully: arrays,
deques, lists, sorted sets, sorted maps, and storage of any other kind that erases by compaction.
-/

set_option autoImplicit false

namespace Sortition

variable {C α σ : Type}

/-! ## A container is trimmed as its list is

Trimming looks at a container through its size and through what erasing does to it, and a lawful
container agrees with its list on both. -/

section

variable {m : Type → Type} [Monad m] [LawfulMonad m]

theorem eraseIfM_list (p : α → m Bool) (items : List α) :
    Erasable.eraseIfM p items = siftM (refuse p) items :=
  relinkM_eq p items

theorem refuse_refuse (p : α → m Bool) : refuse (refuse p) = p := by
  funext a
  simp [refuse]

theorem map_run' {β τ : Type} (f : α → β) (x : StateT τ m α) (t : τ) :
    f <$> x.run' t = (f <$> x).run' t := by
  simp [StateT.run'_eq]

variable [Source σ]

theorem trim_list (k : Nat) (items : List α) :
    (trim k items : Draw σ (List α)) =
      if items.length ≤ k then pure items
      else (siftM (refuse fun _ => Quota.dropNext) items).run' ⟨k, items.length⟩ := by
  rw [trim, eraseIfM_list]
  rfl

/-- **Only the list of the elements matters to trimming.** -/
theorem toList_trim [Erasable C α] [LawfulErasable C α] (k : Nat) (c : C) :
    Sequence.toList <$> (trim k c : Draw σ C) = trim k (Sequence.toList c) := by
  rw [trim_list, trim, LawfulSequence.size_eq]
  split
  · exact map_pure _ _
  · rw [map_run', LawfulErasable.toList_eraseIfM]

/-- **First the predicate is asked, and then the source.**  All that the predicate does in its monad
is done before anything is drawn, and what is drawn then is a matter of what was accepted. -/
theorem runFrom_trimIf [Erasable C α] (p : α → m Bool) (k : Nat) (c : C) (s : σ) :
    (trimIf p k c : DrawT σ m C).runFrom s =
      (fun accepted => if k = 0 then (.ok accepted, s) else (trim k accepted).runFrom s) <$>
        Erasable.eraseIfM (refuse p) c := by
  rw [trimIf, DrawT.runFrom_bind, DrawT.runFrom_ask, bind_map_left, ← bind_pure_comp]
  refine bind_congr fun accepted => ?_
  by_cases hk : k = 0
  · simp only [hk, if_true]
    rfl
  · simp only [hk, if_false]
    rfl

/-- A list is first sifted, and what is left is trimmed. -/
theorem runFrom_trimIf_list (p : α → m Bool) (k : Nat) (items : List α) (s : σ) :
    (trimIf p k items : DrawT σ m (List α)).runFrom s =
      (fun accepted => if k = 0 then (.ok accepted, s) else (trim k accepted).runFrom s) <$>
        siftM p items := by
  rw [runFrom_trimIf, eraseIfM_list, refuse_refuse]

/-- Only the list of the elements matters to filtered trimming. -/
theorem toList_trimIf [Erasable C α] [LawfulErasable C α] (p : α → m Bool) (k : Nat) (c : C) :
    Sequence.toList <$> (trimIf p k c : DrawT σ m C) = trimIf p k (Sequence.toList c) := by
  have herase : Sequence.toList <$> Erasable.eraseIfM (refuse p) c =
      Erasable.eraseIfM (refuse p) (Sequence.toList c) := by
    rw [LawfulErasable.toList_eraseIfM, eraseIfM_list]
  rw [trimIf, trimIf, ← herase, ← DrawT.map_ask, map_bind, bind_map_left]
  refine bind_congr fun accepted => ?_
  split
  · exact map_pure _ _
  · rw [DrawT.map_ofDraw, toList_trim]

end

/-- What trimming leaves is a part of what there was, also with answers out of range. -/
theorem sublist_of_trim [Source σ] {k : Nat} {items left : List α} {s s' : σ}
    (h : (trim k items).runFrom s = (.ok left, s')) : left.Sublist items := by
  rw [trim_list] at h
  split at h
  · cases h
    exact .refl _
  · -- `retainM` is the pass that carries the proof that it leaves a part of the items
    rw [← val_retainM, ← map_run'] at h
    obtain ⟨kept, -, rfl⟩ := DrawT.exists_of_runFrom_map h
    exact kept.2

/-! ## The requests of a pass -/

/-- A number between one and `n`, then one between one and `n - 1`, and so on down to one. -/
def countdown : Nat → List Request
  | 0 => []
  | n + 1 => .uniform 1 (n + 1) :: countdown n

theorem length_countdown : ∀ n, (countdown n).length = n
  | 0 => rfl
  | n + 1 => congrArg (· + 1) (length_countdown n)

/-- A source that answers in the range of every request for a number from one on is honest about
every countdown. -/
theorem honest_countdown [Source σ]
    (h : ∀ (n : Nat) (s : σ), ∃ drawn s', (Source.uniform 1 (n + 1)).runFrom s = (.ok drawn, s') ∧
      1 ≤ drawn ∧ drawn ≤ n + 1) : ∀ (n : Nat) (s : σ), Honest (countdown n) s
  | 0, _ => trivial
  | n + 1, s =>
    have ⟨drawn, s', first, fits⟩ := h n s
    ⟨drawn, s', first, fits, honest_countdown h n s'⟩

/-- Answers in the range of a countdown are all positive. -/
theorem pos_of_fits : ∀ {n : Nat} {answers : List Nat},
    List.Forall₂ Request.Fits (countdown n) answers → ∀ drawn ∈ answers, 1 ≤ drawn
  | 0, _, .nil => by simp
  | n + 1, drawn :: answers, .cons first rest => by
    have ih := pos_of_fits rest
    simpa using ⟨first.1, ih⟩

/-! ## The marks that answers give -/

/-- The marks of items for which numbers were drawn, when there is room for so many: an item is
marked if its number does not exceed the room that is left, and takes some of it. -/
def marksOf (room : Nat) : (answers : List Nat) → List Bool
  | [] => []
  | drawn :: answers =>
    decide (drawn ≤ room) :: marksOf (room - (decide (drawn ≤ room)).toNat) answers

/-- An item is marked if and only if its answer does not exceed what the marks before it have left
of `k`. -/
def ByRule (k : Nat) (answers : List Nat) (marks : List Bool) : Prop :=
  ∀ (i : Nat) (hm : i < marks.length) (ha : i < answers.length),
    marks[i] = true ↔ answers[i] ≤ k - (marks.take i).count true

theorem length_marksOf : ∀ (room : Nat) (answers : List Nat),
    (marksOf room answers).length = answers.length
  | _, [] => rfl
  | _, _ :: answers => congrArg (· + 1) (length_marksOf _ answers)

theorem length_marksOf_of_fits {n : Nat} {answers : List Nat} (room : Nat)
    (h : List.Forall₂ Request.Fits (countdown n) answers) : (marksOf room answers).length = n := by
  rw [length_marksOf, ← h.length_eq, length_countdown]

theorem byRule_marksOf (k : Nat) (answers : List Nat) : ByRule k answers (marksOf k answers) := by
  intro i hm ha
  induction answers generalizing k i with
  | nil => simp at ha
  | cons drawn answers ih =>
    cases i with
    | zero => simp [marksOf]
    | succ i =>
      have ih := ih (k - (decide (drawn ≤ k)).toNat) i (by simpa [marksOf] using hm)
        (by simpa using ha)
      simp only [marksOf, List.getElem_cons_succ, List.take_succ_cons]
      rw [ih]
      by_cases hd : drawn ≤ k
      · simp only [hd, decide_true, Bool.toNat_true, List.count_cons_self]
        omega
      · simp [hd]

/-- With answers in range, there are exactly as many marks as there is room for. -/
theorem count_marksOf : ∀ {n room : Nat} {answers : List Nat},
    List.Forall₂ Request.Fits (countdown n) answers → room ≤ n →
      (marksOf room answers).count true = room
  | 0, room, _, .nil, hroom => by
    obtain rfl : room = 0 := by omega
    rfl
  | n + 1, room, drawn :: answers, .cons first rest, hroom => by
    obtain ⟨hlo, hhi⟩ := first
    -- an unmarked item was drawn above the room, and so there is room for `n` at most
    by_cases hd : drawn ≤ room
    · have ih : (marksOf (room - 1) answers).count true = room - 1 := count_marksOf rest (by omega)
      simp [marksOf, hd, ih]
      omega
    · have ih : (marksOf room answers).count true = room := count_marksOf rest (by omega)
      simp [marksOf, hd, ih]

/-- And so exactly as many items are marked. -/
theorem length_marked_marksOf {items : List α} {k : Nat} {answers : List Nat}
    (h : List.Forall₂ Request.Fits (countdown items.length) answers) (hk : k ≤ items.length) :
    (marked (marksOf k answers) items).length = k := by
  rw [length_marked (length_marksOf_of_fits k h), count_marksOf h hk]

/-! ## Answers that take too much

An answer of zero never exceeds the room, and so it takes an item also when there is none left. -/

/-- The answer at a position takes an item too many: it is zero, and as many items as there may be
are marked before it. -/
def Overdraws (k : Nat) (answers : List Nat) (marks : List Bool) (i : Nat) : Prop :=
  answers[i]? = some 0 ∧ (marks.take i).count true = k

theorem overdraws_zero_iff {room drawn : Nat} {answers : List Nat} {marks : List Bool} :
    Overdraws room (drawn :: answers) marks 0 ↔ drawn = 0 ∧ room = 0 := by
  simp [Overdraws, eq_comm]

/-- Behind the first answer there is the room that it leaves, if it did not take too much itself. -/
theorem overdraws_succ_iff {room drawn i : Nat} {answers : List Nat} :
    Overdraws room (drawn :: answers) (marksOf room (drawn :: answers)) (i + 1) ↔
      (drawn = 0 → 0 < room) ∧ Overdraws (room - (decide (drawn ≤ room)).toNat) answers
        (marksOf (room - (decide (drawn ≤ room)).toNat) answers) i := by
  rw [Overdraws, Overdraws, marksOf, List.getElem?_cons_succ, List.take_succ_cons, List.count_cons,
    and_left_comm]
  refine and_congr_right fun _ => ?_
  by_cases hd : drawn ≤ room
  · simp only [hd, decide_true, Bool.toNat_true, beq_self_eq_true, if_true]
    omega
  · simp only [hd, decide_false, Bool.toNat_false, Nat.sub_zero, beq_iff_eq,
      Bool.false_eq_true, if_false]
    omega

/-- If no answer takes too much, then neither does the first, nor one of those behind it from the
room that is left to them. -/
theorem not_overdraws_cons {room drawn : Nat} {answers : List Nat}
    (h : ∀ i, ¬ Overdraws room (drawn :: answers) (marksOf room (drawn :: answers)) i) :
    (drawn = 0 → 0 < room) ∧ ∀ i, ¬ Overdraws (room - (decide (drawn ≤ room)).toNat) answers
      (marksOf (room - (decide (drawn ≤ room)).toNat) answers) i := by
  have hdrawn : drawn = 0 → 0 < room := fun hzero =>
    Nat.pos_of_ne_zero fun hnone => h 0 (overdraws_zero_iff.2 ⟨hzero, hnone⟩)
  exact ⟨hdrawn, fun i hi => h (i + 1) (overdraws_succ_iff.2 ⟨hdrawn, hi⟩)⟩

theorem not_overdraws_of_pos {k : Nat} {answers : List Nat} {marks : List Bool}
    (hpos : ∀ drawn ∈ answers, 1 ≤ drawn) (i : Nat) : ¬ Overdraws k answers marks i := by
  rintro ⟨hzero, -⟩
  have := hpos 0 (List.mem_of_getElem? hzero)
  omega

/-- Answers in range take no item too many. -/
theorem not_overdraws_of_fits {n k : Nat} {answers : List Nat} {marks : List Bool}
    (h : List.Forall₂ Request.Fits (countdown n) answers) (i : Nat) :
    ¬ Overdraws k answers marks i :=
  not_overdraws_of_pos (pos_of_fits h) i

/-! ## The pass -/

section

variable [Source σ]

/-- Counting off an element is to compare its number with the room, as long as a zero does not find
the room used up. -/
theorem Quota.countOff_eq {room left drawn : Nat} (h : drawn = 0 → 0 < room) :
    Quota.countOff ⟨room, left + 1⟩ drawn =
      .ok (decide (drawn ≤ room), ⟨room - (decide (drawn ≤ room)).toNat, left⟩) := by
  rw [Quota.countOff]
  by_cases hd : drawn ≤ room
  · obtain ⟨room, rfl⟩ : ∃ r, room = r + 1 := ⟨room - 1, by omega⟩
    simp [hd]
  · simp [hd]

theorem Quota.runFrom_dropNext {room left drawn : Nat} {s s' : σ} (h : drawn = 0 → 0 < room)
    (hs : (Source.uniform 1 (left + 1)).runFrom s = (.ok drawn, s')) :
    (Quota.dropNext.run ⟨room, left + 1⟩).runFrom s =
      (.ok (!decide (drawn ≤ room), ⟨room - (decide (drawn ≤ room)).toNat, left⟩), s') := by
  unfold Quota.dropNext
  rw [StateT.run, DrawT.runFrom_bind_of_ok hs, Quota.countOff_eq h]
  rfl

/-- **A pass makes the requests of a countdown and leaves the marked items**, as long as no answer
takes an item too many. -/
theorem runFrom_siftM_dropNext : ∀ {items : List α} {answers : List Nat} {s s' : σ} (room : Nat),
    Answered (countdown items.length) s answers s' →
      (∀ i, ¬ Overdraws room answers (marksOf room answers) i) →
      ((siftM (refuse fun _ => Quota.dropNext) items).run ⟨room, items.length⟩).runFrom s =
        (.ok (marked (marksOf room answers) items,
          ⟨room - (marksOf room answers).count true, 0⟩), s')
  | [], _, _, _, _, .nil s, _ => rfl
  | item :: items, drawn :: answers, s, s', room, .cons first rest, hroom => by
    obtain ⟨hdrawn, hroom⟩ := not_overdraws_cons hroom
    have hnext : (Quota.dropNext.run ⟨room, items.length + 1⟩).runFrom s = _ :=
      Quota.runFrom_dropNext hdrawn first
    have hrest := runFrom_siftM_dropNext (room - (decide (drawn ≤ room)).toNat) rest hroom
    -- the first item is counted off, then the others are, with the room that it leaves
    simp only [siftM, refuse, bind_map_left, StateT.run_bind, List.length_cons]
    rw [DrawT.runFrom_bind_of_ok hnext]
    simp only [Bool.not_not]
    rw [DrawT.runFrom_bind_of_ok hrest]
    rw [marksOf, marked, List.count_cons, Nat.sub_sub]
    by_cases hd : drawn ≤ room
    · simp only [hd, decide_true, Bool.toNat_true, if_true, beq_self_eq_true, Nat.add_comm]
      rfl
    · simp only [hd, decide_false, Bool.toNat_false, Nat.sub_zero, Nat.zero_add]
      rfl

/-- Trimming a list with more than `k` items to `k` leaves those that the answers mark. -/
theorem runFrom_trim_list {items : List α} {answers : List Nat} {s s' : σ} {k : Nat}
    (hk : k < items.length) (h : Answered (countdown items.length) s answers s')
    (hroom : ∀ i, ¬ Overdraws k answers (marksOf k answers) i) :
    (trim k items).runFrom s = (.ok (marked (marksOf k answers) items), s') := by
  have hpass := runFrom_siftM_dropNext k h hroom
  rw [trim_list, if_neg (by omega), StateT.run'_eq]
  exact DrawT.runFrom_map_of_ok _ hpass

variable [Erasable C α] [LawfulErasable C α]

/-- The same for every container. -/
theorem runFrom_trim {c : C} {answers : List Nat} {s s' : σ} {k : Nat}
    (hk : k < Sequence.size c) (h : Answered (countdown (Sequence.size c)) s answers s')
    (hroom : ∀ i, ¬ Overdraws k answers (marksOf k answers) i) :
    ∃ left : C, (trim k c).runFrom s = (.ok left, s') ∧
      Sequence.toList left = marked (marksOf k answers) (Sequence.toList c) := by
  rw [LawfulSequence.size_eq] at hk h
  have hlist := runFrom_trim_list hk h hroom
  rw [← toList_trim] at hlist
  exact DrawT.exists_of_runFrom_map hlist

end

/-! ## Exactness -/

/-- **Trimming is exact.**  A container that is within the limit is left as it is, and nothing is
asked.  Otherwise, if the source is honest about the requests of a countdown, these requests are all
that is asked, in their order; there is no fault; the elements that are left are marked by the rule
of the quota, so that they stand in their order; and there are exactly `k` of them.  A source that
always answers in range is honest about every countdown (`honest_countdown`). -/
theorem trim_exact [Source σ] [Erasable C α] [LawfulErasable C α] (k : Nat) (c : C)
    (r : Recorded σ) :
    (Sequence.size c ≤ k → (trim k c).runFrom r = (.ok c, r)) ∧
    (k < Sequence.size c → Honest (countdown (Sequence.size c)) r.source →
      ∃ (left : C) (after : Recorded σ) (answers : List Nat) (marks : List Bool),
        (trim k c).runFrom r = (.ok left, after) ∧
        after.requests = r.requests ++ countdown (Sequence.size c) ∧
        Answered (countdown (Sequence.size c)) r.source answers after.source ∧
        ByRule k answers marks ∧ marks.length = Sequence.size c ∧ marks.count true = k ∧
        Sequence.toList left = marked marks (Sequence.toList c) ∧
        (Sequence.toList left).Sublist (Sequence.toList c) ∧
        (Sequence.toList left).length = k) := by
  refine ⟨fun hle => by rw [trim, if_pos hle]; rfl, fun hlt hhonest => ?_⟩
  obtain ⟨answers, s', hanswered, hfits⟩ := hhonest.exists_answered
  have hlength : (marksOf k answers).length = Sequence.size c := length_marksOf_of_fits k hfits
  have hcount : (marksOf k answers).count true = k := count_marksOf hfits (by omega)
  obtain ⟨left, hrun, hleft⟩ := runFrom_trim hlt (hanswered.recorded r.latestFirst)
    (not_overdraws_of_fits hfits)
  refine ⟨left, _, answers, marksOf k answers, hrun, by simp [Recorded.requests], hanswered,
    byRule_marksOf k answers, hlength, hcount, hleft, hleft ▸ marked_sublist _ _, ?_⟩
  rw [hleft, length_marked (by rw [hlength, LawfulSequence.size_eq]), hcount]

theorem trim_exact_letters :
    let letters : Deque Char := ⟨#['b', 'a'], #['c', 'd', 'e']⟩
    let r : Recorded Script := ⟨⟨[1, 4, 1, 2, 1]⟩, []⟩
    2 < Sequence.size letters ∧ Honest (countdown (Sequence.size letters)) r.source ∧
      ∃ (left : Deque Char) (after : Recorded Script),
        (trim 2 letters).runFrom r = (.ok left, after) ∧
        after.requests = [.uniform 1 5, .uniform 1 4, .uniform 1 3, .uniform 1 2, .uniform 1 1] ∧
        (Sequence.toList left).Sublist ['a', 'b', 'c', 'd', 'e'] ∧
        (Sequence.toList left).length = 2 := by
  intro letters r
  have hsize : 2 < Sequence.size letters := by decide
  have hhonest : Honest (countdown (Sequence.size letters)) r.source :=
    ⟨1, _, rfl, by decide, 4, _, rfl, by decide, 1, _, rfl, by decide, 2, _, rfl, by decide,
      1, _, rfl, by decide, trivial⟩
  obtain ⟨left, after, -, -, hrun, hrequests, -, -, -, -, -, hsub, hlength⟩ :=
    (trim_exact 2 letters r).2 hsize hhonest
  exact ⟨hsize, hhonest, left, after, hrun, hrequests, hsub, hlength⟩

end Sortition

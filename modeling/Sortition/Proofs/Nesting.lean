import Sortition.Container.Deque
import Sortition.Proofs.Trimming

/-!
# A higher limit keeps more

Two runs of trimming, with different limits and the same answers, go apart at the first element that
one of them keeps and the other does not, and from there on their counters have nothing to do with
each other.  And still, what the lower limit keeps the higher one keeps too.

Elements can be equal, and then what is left does not show where it stood.  So the statement is
about positions, and what is kept of the positions is what trimming leaves of the list of the
positions themselves.  That this is no other matter than to trim the container is
`map_some_trim`: trimming does not look at the elements.

* `trim_map` says that trimming is natural in the elements.
* `marked_sublist_of_le` is the law for the marks.  What couples the two runs is that the lower room
  never exceeds the higher one.
* `trim_mono` is the main statement.
-/

set_option autoImplicit false

namespace Sortition

variable {C α β σ ρ : Type}

/-! ## Positions -/

section

variable [Source σ]

theorem siftM_map {m : Type → Type} [Monad m] [LawfulMonad m] (f : α → β) (keep : β → m Bool)
    (items : List α) :
    siftM keep (items.map f) = List.map f <$> siftM (fun a => keep (f a)) items := by
  induction items with
  | nil => simp [siftM]
  | cons item items ih =>
    rw [List.map_cons, siftM, siftM, ih, map_bind]
    refine bind_congr fun kept => ?_
    cases kept <;> simp

/-- Trimming does not look at the elements. -/
theorem trim_map (f : α → β) (k : Nat) (items : List α) :
    (trim k (items.map f) : Draw σ (List β)) = List.map f <$> trim k items := by
  rw [trim_list, trim_list, List.length_map]
  split
  · rw [map_pure]
  · rw [map_run', siftM_map]
    rfl

/-- **A container is trimmed as its positions are.** -/
theorem map_some_trim [Erasable C α] [LawfulErasable C α] (k : Nat) (c : C) :
    (fun left => (Sequence.toList left).map some) <$> (trim k c : Draw σ C) =
      List.map (fun i => (Sequence.toList c)[i]?) <$> trim k (List.range (Sequence.size c)) := by
  have hitems : (Sequence.toList c).map some =
      (List.range (Sequence.size c)).map fun i => (Sequence.toList c)[i]? := by
    rw [LawfulSequence.size_eq, map_some_eq_map_range]
  rw [← trim_map, ← hitems, trim_map, ← toList_trim, Functor.map_map]

end

/-! ## Marks -/

/-- **With more room, the same answers mark more.**  An item that is marked in both cases takes one
from either room, and one that is marked only in the second has a number above the first room, so
that there is still no less room in the second. -/
theorem marked_sublist_of_le {answers : List Nat} (hpos : ∀ drawn ∈ answers, 1 ≤ drawn)
    {room room' : Nat} (hroom : room ≤ room') (items : List α) :
    (marked (marksOf room answers) items).Sublist (marked (marksOf room' answers) items) := by
  induction answers generalizing room room' items with
  | nil => exact .refl _
  | cons drawn answers ih =>
    obtain ⟨hdrawn, hpos⟩ := List.forall_mem_cons.1 hpos
    rcases items with _ | ⟨item, items⟩
    · exact .refl _
    · rw [marksOf, marksOf, marked, marked]
      by_cases hlow : drawn ≤ room
      · have hhigh : drawn ≤ room' := by omega
        simp only [hlow, hhigh, decide_true, if_true, Bool.toNat_true]
        exact (ih hpos (by omega) items).cons_cons item
      · by_cases hhigh : drawn ≤ room'
        · simp only [hlow, hhigh, decide_true, decide_false, if_true, Bool.false_eq_true, if_false,
            Bool.toNat_true, Bool.toNat_false]
          exact (ih hpos (by omega) items).cons item
        · simp only [hlow, hhigh, decide_false, Bool.false_eq_true, if_false, Bool.toNat_false]
          exact ih hpos (by omega) items

/-- What some answers keep of `n` positions under a limit. -/
def keptOf (k n : Nat) (answers : List Nat) : List Nat :=
  if n ≤ k then List.range n else marked (marksOf k answers) (List.range n)

theorem keptOf_sublist_range (k n : Nat) (answers : List Nat) :
    (keptOf k n answers).Sublist (List.range n) := by
  rw [keptOf]
  split
  · exact .refl _
  · exact marked_sublist _ _

theorem keptOf_sublist_of_le {answers : List Nat} (hpos : ∀ drawn ∈ answers, 1 ≤ drawn)
    {k k' : Nat} (hk : k ≤ k') (n : Nat) : (keptOf k n answers).Sublist (keptOf k' n answers) := by
  by_cases hhigh : n ≤ k'
  · have hall : keptOf k' n answers = List.range n := if_pos hhigh
    rw [hall]
    exact keptOf_sublist_range k n answers
  · rw [keptOf, keptOf, if_neg (by omega), if_neg hhigh]
    exact marked_sublist_of_le hpos hk _

/-! ## Two runs -/

/-- A run keeps what its answers keep of the positions, and leaves the elements that stand there. -/
theorem exists_trim_kept [Source σ] [Erasable C α] [LawfulErasable C α] {k : Nat} {c : C}
    {answers : List Nat} {s s' : σ} (hpos : ∀ drawn ∈ answers, 1 ≤ drawn)
    (h : k < Sequence.size c → Answered (countdown (Sequence.size c)) s answers s') :
    ∃ (left : C) (after : σ), (trim k c).runFrom s = (.ok left, after) ∧
      (trim k (List.range (Sequence.size c))).runFrom s =
        (.ok (keptOf k (Sequence.size c) answers), after) ∧
      (Sequence.toList left).map some =
        (keptOf k (Sequence.size c) answers).map fun i => (Sequence.toList c)[i]? := by
  have hkept : ∃ after, (trim k (List.range (Sequence.size c))).runFrom s =
      (.ok (keptOf k (Sequence.size c) answers), after) := by
    by_cases hle : Sequence.size c ≤ k
    · rw [trim_list, List.length_range, if_pos hle, keptOf, if_pos hle]
      exact ⟨s, rfl⟩
    · have hanswered := h (by omega)
      rw [keptOf, if_neg hle]
      exact ⟨s', runFrom_trim_list (by rw [List.length_range]; omega)
        (by rwa [List.length_range]) (not_overdraws_of_pos hpos)⟩
  obtain ⟨after, hkept⟩ := hkept
  have hleft := DrawT.runFrom_map_of_ok (List.map fun i => (Sequence.toList c)[i]?) hkept
  rw [← map_some_trim] at hleft
  obtain ⟨left, hrun, heq⟩ := DrawT.exists_of_runFrom_map hleft
  exact ⟨left, after, hrun, hkept, heq⟩

/-- **A higher limit keeps more.**  Let two runs trim a container to limits `k ≤ k'`, and let those
of them that draw at all receive the same answers, of which it is only asked that they are not zero.
Then neither stops with a fault, the positions that the first keeps are among those that the second
keeps, and each leaves the elements that stand at the positions it keeps, in their order.  A limit
that is not below the number of elements keeps all of them. -/
theorem trim_mono [Source σ] [Source ρ] [Erasable C α] [LawfulErasable C α] {k k' : Nat}
    (hk : k ≤ k') (c : C) {answers : List Nat} (hpos : ∀ drawn ∈ answers, 1 ≤ drawn)
    {s s' : σ} (hs : k < Sequence.size c → Answered (countdown (Sequence.size c)) s answers s')
    {t t' : ρ} (ht : k' < Sequence.size c → Answered (countdown (Sequence.size c)) t answers t') :
    let positions := List.range (Sequence.size c)
    let at? := fun i => (Sequence.toList c)[i]?
    ∃ (left left' : C) (kept kept' : List Nat) (after : σ) (after' : ρ),
      ((trim k c).runFrom s = (.ok left, after) ∧
        (trim k positions).runFrom s = (.ok kept, after) ∧
        (Sequence.toList left).map some = kept.map at?) ∧
      ((trim k' c).runFrom t = (.ok left', after') ∧
        (trim k' positions).runFrom t = (.ok kept', after') ∧
        (Sequence.toList left').map some = kept'.map at?) ∧
      kept ⊆ kept' ∧ kept.Sublist kept' ∧ kept'.Sublist positions ∧
      (Sequence.size c ≤ k → kept = positions) ∧ (Sequence.size c ≤ k' → kept' = positions) := by
  intro positions at?
  obtain ⟨left, after, hrun, hkept, hleft⟩ := exists_trim_kept hpos hs
  obtain ⟨left', after', hrun', hkept', hleft'⟩ := exists_trim_kept hpos ht
  have hsub : (keptOf k (Sequence.size c) answers).Sublist (keptOf k' (Sequence.size c) answers) :=
    keptOf_sublist_of_le hpos hk _
  exact ⟨left, left', _, _, after, after', ⟨hrun, hkept, hleft⟩, ⟨hrun', hkept', hleft'⟩,
    hsub.subset, hsub, keptOf_sublist_range k' _ _, fun hle => if_pos hle, fun hle => if_pos hle⟩

/-- The number drawn for the second letter is above what was asked for, and the two runs go apart at
the first letter. -/
theorem trim_mono_letters :
    let letters : Deque Char := ⟨#['b', 'a'], #['a', 'd', 'a']⟩
    let script : Script := ⟨[2, 9, 1, 2, 1]⟩
    Answered (countdown (Sequence.size letters)) script [2, 9, 1, 2, 1] ⟨[]⟩ ∧
      ∃ (left left' : Deque Char) (kept kept' : List Nat),
        ((trim 1 letters).runFrom script).1 = .ok left ∧
        ((trim 3 letters).runFrom script).1 = .ok left' ∧
        ((trim 1 (List.range 5)).runFrom script).1 = .ok kept ∧
        ((trim 3 (List.range 5)).runFrom script).1 = .ok kept' ∧ kept ⊆ kept' := by
  intro letters script
  have hanswered : Answered (countdown (Sequence.size letters)) script [2, 9, 1, 2, 1] ⟨[]⟩ :=
    .cons rfl (.cons rfl (.cons rfl (.cons rfl (.cons rfl (.nil _)))))
  obtain ⟨left, left', kept, kept', _, _, ⟨hrun, hkept, -⟩, ⟨hrun', hkept', -⟩, hsub, -⟩ :=
    trim_mono (by decide : 1 ≤ 3) letters (by decide) (fun _ => hanswered) (fun _ => hanswered)
  exact ⟨hanswered, left, left', kept, kept', by rw [hrun], by rw [hrun'],
    congrArg Prod.fst hkept, congrArg Prod.fst hkept', hsub⟩

/-- The positions, and the letters that stand there. -/
example :
    let letters : Deque Char := ⟨#['b', 'a'], #['a', 'd', 'a']⟩
    let kept := fun k => ((trim k (List.range 5)).runFrom (Script.mk [2, 9, 1, 2, 1])).1
    let left := fun k => ((trim k letters).runFrom (Script.mk [2, 9, 1, 2, 1])).1
    kept 1 = .ok [2] ∧ (left 1).map Sequence.toList = .ok ['a'] ∧
      kept 3 = .ok [0, 2, 4] ∧ (left 3).map Sequence.toList = .ok ['a', 'a', 'a'] := by
  decide

end Sortition

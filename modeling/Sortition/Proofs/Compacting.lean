import Sortition.Container.Deque
import Sortition.Proofs.Erasing

/-!
# What compaction does to its storage

Compaction moves elements while it still has to read others, so what it leaves is not the whole
story for someone who has written the storage: it matters which exchanges are made, and when the
tail is cut off.  `Traced` storage shows both.  A survivor is exchanged once, with what stands where
it belongs, and only if it does not stand there already; one cut at the end does the rest.

* `exchanges` are the exchanges of a pass, from the marks of the survivors; `exchanges_eq` is their
  closed form, by the survivors that are `displaced`.
* `Settled` says what a pass makes of storage, with one lemma for each thing that can befall an
  element: it is to go, it stands where it belongs, it changes places.  `exists_settled` is the
  pass.  In the course of it the storage has three parts: the survivors so far, then elements that
  are to go, which the exchanges have turned around, then what has not been read and is as it was.
* `storage_compactM` says that the record is not seen by what is recorded: storage without one
  suffers the same.
* `compaction_discipline` is the main statement.
-/

set_option autoImplicit false

namespace Sortition

variable {C α τ : Type}

/-! ## The exchanges -/

/-- The exchanges of a pass over marked items, from a position on, when the next survivor belongs at
position `write`. -/
def exchanges : (read write : Nat) → (marks : List Bool) → List Mutation
  | _, _, [] => []
  | read, write, false :: marks => exchanges (read + 1) write marks
  | read, write, true :: marks =>
    if read = write then exchanges (read + 1) (write + 1) marks
    else .swap read write :: exchanges (read + 1) (write + 1) marks

/-- The number of marks before a position: where a survivor at this position belongs. -/
def placeOf (marks : List Bool) (r : Nat) : Nat := (marks.take r).count true

/-- The positions of the survivors that do not stand where they belong, in ascending order. -/
def displaced (marks : List Bool) : List Nat :=
  (List.range marks.length).filter fun r => marks[r]? = some true ∧ placeOf marks r ≠ r

/-- Behind marks that have been dealt with, the exchanges are those of the displaced survivors. -/
theorem exchanges_append (before marks : List Bool) :
    exchanges before.length (before.count true) marks =
      ((List.range' before.length marks.length).filter fun r =>
        (before ++ marks)[r]? = some true ∧ placeOf (before ++ marks) r ≠ r).map
          fun r => .swap r (placeOf (before ++ marks) r) := by
  induction marks generalizing before with
  | nil => rfl
  | cons mark marks ih =>
    have ih := ih (before ++ [mark])
    have hplace : placeOf (before ++ mark :: marks) before.length = before.count true := by
      simp [placeOf]
    rw [List.append_assoc, List.singleton_append, List.length_append] at ih
    rw [List.length_cons, List.range'_succ, List.filter_cons]
    cases mark with
    | false => simpa [exchanges] using ih
    | true =>
      have hcount : (before ++ [true]).count true = before.count true + 1 := by simp
      rw [hcount] at ih
      rw [exchanges]
      by_cases hread : before.length = before.count true
      · rw [if_pos hread, if_neg (by simp [hplace, ← hread])]
        exact ih
      · rw [if_neg hread, if_pos (by simp [hplace]; omega), List.map_cons, hplace]
        exact congrArg _ ih

theorem exchanges_eq (marks : List Bool) :
    exchanges 0 0 marks = (displaced marks).map fun r => .swap r (placeOf marks r) := by
  have h := exchanges_append [] marks
  rw [List.length_nil, ← List.range_eq_range'] at h
  exact h

theorem placeOf_le (marks : List Bool) (r : Nat) : placeOf marks r ≤ r :=
  Nat.le_trans List.count_le_length (List.length_take_le r marks)

/-- A survivor has its place before the place of whatever stands behind it. -/
theorem placeOf_lt_placeOf {marks : List Bool} {r r' : Nat} (hr : marks[r]? = some true)
    (h : r < r') : placeOf marks r < placeOf marks r' := by
  have hnext : placeOf marks (r + 1) = placeOf marks r + 1 := by
    simp [placeOf, List.take_add_one, hr]
  have hmono : placeOf marks (r + 1) ≤ placeOf marks r' :=
    (List.take_sublist_take_left h).count_le true
  omega

/-- A displaced survivor belongs further in front. -/
theorem placeOf_lt_of_mem_displaced {marks : List Bool} {r : Nat} (hr : r ∈ displaced marks) :
    placeOf marks r < r ∧ r < marks.length := by
  simp only [displaced, List.mem_filter, List.mem_range, decide_eq_true_eq] at hr
  obtain ⟨hlt, -, hne⟩ := hr
  exact ⟨Nat.lt_of_le_of_ne (placeOf_le marks r) hne, hlt⟩

theorem pairwise_displaced (marks : List Bool) : (displaced marks).Pairwise (· < ·) :=
  List.pairwise_lt_range.filter _

/-- No place is filled twice. -/
theorem pairwise_placeOf_displaced (marks : List Bool) :
    ((displaced marks).map (placeOf marks)).Pairwise (· < ·) := by
  refine List.pairwise_map.2 ((pairwise_displaced marks).imp_of_mem fun hr _ hlt => ?_)
  simp only [displaced, List.mem_filter, decide_eq_true_eq] at hr
  exact placeOf_lt_placeOf hr.2.1 hlt

/-! ## The pass -/

section

variable [Swappable C α]

/-- What a pass makes of storage: `kept` are the survivors that it had, `gone` the elements it had
found that are to go, and about those in `rest` it has been given the answers, whether they are to
go.  In front there are the survivors in their order, then the others in some order; and of changes
there are the exchanges that the answers call for. -/
structure Settled (kept gone rest : List α) (answers : List Bool) (read write : Nat)
    (t settled : Traced C) : Prop where
  exists_removed : ∃ removed, removed.Perm (gone ++ marked answers rest) ∧
    Sequence.toList settled = kept ++ marked (answers.map not) rest ++ removed
  mutations_eq : settled.mutations = t.mutations ++ exchanges read write (answers.map not)

namespace Settled

variable {kept gone rest : List α} {x y : α} {answers : List Bool} {read write : Nat}
  {t settled : Traced C}

/-- When nothing is left to be read. -/
theorem nil (ht : Sequence.toList t = kept ++ gone) : Settled kept gone [] [] read write t t where
  exists_removed := ⟨gone, by simp [marked], by simp [marked, ht]⟩
  mutations_eq := (List.append_nil _).symm

/-- An element that is to go stays where it is, behind those that are to go as well. -/
theorem gone_cons (h : Settled kept (gone ++ [x]) rest answers (read + 1) write t settled) :
    Settled kept gone (x :: rest) (true :: answers) read write t settled where
  exists_removed := by
    obtain ⟨removed, hperm, hlist⟩ := h.exists_removed
    exact ⟨removed, by simpa [marked] using hperm, by simpa [marked] using hlist⟩
  mutations_eq := h.mutations_eq

/-- As long as nothing has gone, a survivor stands where it belongs. -/
theorem kept_cons
    (h : Settled (kept ++ [x]) [] rest answers (write + 1) (write + 1) t settled) :
    Settled kept [] (x :: rest) (false :: answers) write write t settled where
  exists_removed := by
    obtain ⟨removed, hperm, hlist⟩ := h.exists_removed
    exact ⟨removed, by simpa [marked] using hperm, by simpa [marked] using hlist⟩
  mutations_eq := by simpa [exchanges] using h.mutations_eq

/-- Afterwards it changes places with the first that is to go, which is the last then. -/
theorem swap_cons (hne : read ≠ write) {hr : read < Sequence.size t} {hw : write < Sequence.size t}
    (h : Settled (kept ++ [x]) (gone ++ [y]) rest answers (read + 1) (write + 1)
      (Swappable.swap t read write hr hw) settled) :
    Settled kept (y :: gone) (x :: rest) (false :: answers) read write t settled where
  exists_removed := by
    obtain ⟨removed, hperm, hlist⟩ := h.exists_removed
    have hturn : (gone ++ [y]).Perm (y :: gone) := List.perm_append_singleton y gone
    exact ⟨removed, hperm.trans (hturn.append_right _), by simpa [marked] using hlist⟩
  mutations_eq := by
    have hswap : (Swappable.swap t read write hr hw).mutations =
        t.mutations ++ [.swap read write] := List.reverse_cons
    rw [h.mutations_eq, hswap]
    simp [exchanges, hne]

end Settled

variable [LawfulSwappable C α]

/-- **The pass of a compaction settles the storage.**  Its three parts are the survivors so far,
elements that are to go, and elements that have not been read and are as they were. -/
theorem exists_settled (p : α → StateM τ Bool) : ∀ (left read write : Nat) (t : Traced C)
    (hsize : read + left = Sequence.size t) (hle : write ≤ read) (kept gone rest : List α)
    (memory : τ), Sequence.toList t = kept ++ gone ++ rest → kept.length = write →
      kept.length + gone.length = read →
    let told := (rest.mapM p).run memory
    ∃ settled : Traced C, (settleM p left read write t hsize hle).run memory =
        ((settled, write + (told.1.map not).count true), told.2) ∧
      Settled kept gone rest told.1 read write t settled
  | 0, read, write, t, hsize, hle, kept, gone, rest, memory, ht, hk, hg => by
    have hlen := LawfulSequence.size_eq t
    rw [ht, List.length_append, List.length_append] at hlen
    obtain rfl : rest = [] := List.eq_nil_of_length_eq_zero (by omega)
    exact ⟨t, rfl, .nil (by simpa using ht)⟩
  | left + 1, read, write, t, hsize, hle, kept, gone, [], memory, ht, hk, hg => by
    have hlen := LawfulSequence.size_eq t
    rw [ht, List.length_append, List.length_append, List.length_nil] at hlen
    omega
  | left + 1, read, write, t, hsize, hle, kept, gone, x :: rest, memory, ht, hk, hg => by
    have hx : Indexed.item t read (by omega) = x :=
      item_of_toList_eq ht (by rw [List.length_append]; exact hg) _
    cases hanswer : (p x).run memory with
    | mk goes memory' =>
      rw [run_mapM_cons p hanswer, settleM, StateT.run_bind, hx, hanswer]
      cases goes with
      | true =>
        obtain ⟨settled, hrun, hsettled⟩ := exists_settled p left (read + 1) write t (by omega)
          (by omega) kept (gone ++ [x]) rest memory' (by simp [ht]) hk (by simp; omega)
        refine ⟨settled, hrun.trans ?_, hsettled.gone_cons⟩
        simp
      | false =>
        by_cases hread : read = write
        · obtain rfl : gone = [] := List.eq_nil_of_length_eq_zero (by omega)
          rw [if_pos hread]
          subst hread
          obtain ⟨settled, hrun, hsettled⟩ := exists_settled p left (read + 1) (read + 1) t
            (by omega) (by omega) (kept ++ [x]) [] rest memory' (by simp [ht]) (by simp [hk])
            (by simp [hk])
          refine ⟨settled, hrun.trans ?_, hsettled.kept_cons⟩
          simp [Nat.add_assoc, Nat.add_comm 1]
        · rw [if_neg hread]
          rcases gone with _ | ⟨y, gone⟩
          · rw [List.length_nil] at hg
            omega
          · have hswap : Sequence.toList (Swappable.swap t read write (by omega) (by omega)) =
                kept ++ [x] ++ (gone ++ [y]) ++ rest :=
              toList_swap_of_toList_eq ht hk (by simp at hg ⊢; omega) _ _
            obtain ⟨settled, hrun, hsettled⟩ := exists_settled p left (read + 1) (write + 1) _
              (by rw [Swappable.size_swap]; omega) (by omega) (kept ++ [x]) (gone ++ [y]) rest
              memory' hswap (by simp [hk]) (by simp at hg ⊢; omega)
            refine ⟨settled, hrun.trans ?_, hsettled.swap_cons hread⟩
            simp [Nat.add_assoc, Nat.add_comm 1]

end

/-! ## Storage without a record -/

section

variable {m : Type → Type} [Monad m] [LawfulMonad m] [Swappable C α]

theorem storage_settleM (p : α → m Bool) : ∀ (left read write : Nat) (t : Traced C)
    (hsize : read + left = Sequence.size t) (hle : write ≤ read),
      (fun r => (r.1.storage, r.2)) <$> settleM p left read write t hsize hle =
        settleM p left read write t.storage hsize hle
  | 0, _, _, _, _, _ => map_pure _ _
  | left + 1, read, write, t, hsize, hle => by
    rw [settleM, settleM, map_bind]
    refine bind_congr fun goes => ?_
    cases goes with
    | true => exact storage_settleM p left _ _ _ _ _
    | false =>
      simp only [Bool.false_eq_true, if_false]
      split
      · exact storage_settleM p left _ _ _ _ _
      · exact storage_settleM p left _ _ _ _ _

/-- **The record is not seen by what is recorded.** -/
theorem storage_compactM (p : α → m Bool) (t : Traced C) :
    Traced.storage <$> compactM p t = compactM p t.storage := by
  have h : settleM p (Sequence.size t.storage) 0 0 t.storage (Nat.zero_add _) (Nat.le_refl _) = _ :=
    (storage_settleM p (Sequence.size t) 0 0 t (Nat.zero_add _) (Nat.le_refl _)).symm
  rw [compactM, compactM, h, map_bind, bind_map_left]
  exact bind_congr fun r => map_pure _ _

end

/-! ## Compaction as a whole -/

/-- The items with a mark and the items without one are all the items. -/
theorem perm_marked : ∀ {marks : List Bool} {items : List α}, marks.length = items.length →
    (marked (marks.map not) items ++ marked marks items).Perm items
  | [], [], _ => .nil
  | mark :: marks, item :: items, h => by
    have ih : (marked (marks.map not) items ++ marked marks items).Perm items :=
      perm_marked (by simpa using h)
    cases mark with
    | false => simpa [marked] using ih
    | true => simpa [marked] using List.perm_middle.trans (ih.cons item)

/-- **Compaction keeps its discipline on storage of any kind**, as long as the operations of the
storage act as those of lists, and whatever a predicate answers and remembers.  Let `stays` be the
marks of the elements that are not to be removed.  The predicate is shown the elements that the
storage had at first, each once and in their order.

* Before the tail is cut off, there has been one exchange for each displaced survivor, in ascending
  order, with the element that stood where the survivor belongs; and nothing else.  Such a place is
  in front of the survivor, which is within bounds, and the places are strictly ascending.
* The storage is then a rearrangement of what it was: the survivors stand in front, in their order,
  and behind them is exactly what is to be removed.
* Then there is one cut behind the survivors, also if it removes nothing.

Storage that keeps no record ends up as storage that does. -/
theorem compaction_discipline [Swappable C α] [LawfulSwappable C α] (p : α → StateM τ Bool) (c : C)
    (memory : τ) :
    let items := Sequence.toList c
    let told := (items.mapM p).run memory
    let stays := told.1.map not
    let survivors := stays.count true
    let traced : Traced C := ⟨c, []⟩
    ∃ settled compacted : Traced C,
      ((settleM (noting p) (Sequence.size traced) 0 0 traced (Nat.zero_add _) (Nat.le_refl _)).run
          ⟨memory, []⟩ = ((settled, survivors), ⟨told.2, items⟩) ∧
        settled.mutations = (displaced stays).map (fun r => .swap r (placeOf stays r)) ∧
        (∀ r ∈ displaced stays, placeOf stays r < r ∧ r < items.length) ∧
        (displaced stays).Pairwise (· < ·) ∧
        ((displaced stays).map (placeOf stays)).Pairwise (· < ·)) ∧
      ((Sequence.toList settled).Perm items ∧
        (Sequence.toList settled).take survivors = marked stays items ∧
        ((Sequence.toList settled).drop survivors).Perm (marked told.1 items)) ∧
      ((compactM (noting p) traced).run ⟨memory, []⟩ = (compacted, ⟨told.2, items⟩) ∧
        compacted.mutations = settled.mutations ++ [.truncate survivors] ∧
        survivors ≤ items.length ∧ Sequence.toList compacted = marked stays items) ∧
      (compactM (noting p) c).run ⟨memory, []⟩ = (compacted.storage, ⟨told.2, items⟩) := by
  intro items told stays survivors traced
  have hlength : stays.length = items.length := by
    rw [List.length_map, length_run_mapM]
  have hsurvivors : (marked stays items).length = survivors := length_marked hlength
  obtain ⟨settled, hrun, hsettled⟩ := exists_settled (noting p) (Sequence.size traced) 0 0 traced
    (Nat.zero_add _) (Nat.le_refl _) [] [] items ⟨memory, []⟩ rfl rfl rfl
  simp only [run_mapM_noting, List.nil_append, Nat.zero_add] at hrun hsettled
  obtain ⟨removed, hremoved, hlist⟩ := hsettled.exists_removed
  rw [List.nil_append] at hremoved hlist
  have hfront : (Sequence.toList settled).take survivors = marked stays items := by
    rw [hlist, List.take_left' hsurvivors]
  have hcompact : (compactM (noting p) traced).run ⟨memory, []⟩ =
      (Swappable.truncate settled survivors, ⟨told.2, items⟩) := by
    rw [compactM, StateT.run_bind, hrun]
    rfl
  refine ⟨settled, Swappable.truncate settled survivors,
    ⟨hrun, ?_, fun r hr => ?_, pairwise_displaced stays, pairwise_placeOf_displaced stays⟩,
    ⟨?_, ?_, ?_⟩, ⟨hcompact, List.reverse_cons, ?_, ?_⟩, ?_⟩
  · rw [hsettled.mutations_eq, exchanges_eq]
    rfl
  · rw [← hlength]
    exact placeOf_lt_of_mem_displaced hr
  · rw [hlist]
    exact (hremoved.append_left _).trans (perm_marked (by rw [length_run_mapM]))
  · exact hfront
  · rw [hlist, List.drop_left' hsurvivors]
    exact hremoved
  · rw [← hlength]
    exact List.count_le_length
  · rw [LawfulSwappable.toList_truncate, hfront]
  · rw [← storage_compactM (noting p) traced, StateT.run_map, hcompact]
    rfl

/-- Of five letters the first, the third and the fifth are removed, and the other two have to
move. -/
theorem compaction_discipline_letters :
    let letters : Deque Char := ⟨#['b', 'a'], #['a', 'd', 'e']⟩
    let p : Char → StateM Nat Bool := fun _ asked => (asked % 2 == 0, asked + 1)
    ∃ settled compacted : Traced (Deque Char),
      settled.mutations = [.swap 1 0, .swap 3 1] ∧
      (Sequence.toList settled).Perm ['a', 'b', 'a', 'd', 'e'] ∧
      (compactM (noting p) ⟨letters, []⟩).run ⟨0, []⟩ =
        (compacted, ⟨5, ['a', 'b', 'a', 'd', 'e']⟩) ∧
      compacted.mutations = [.swap 1 0, .swap 3 1, .truncate 2] ∧
      Sequence.toList compacted = ['b', 'd'] := by
  intro letters p
  obtain ⟨settled, compacted, ⟨-, hmade, -⟩, ⟨hperm, -⟩, ⟨hrun, hall, -, hleft⟩, -⟩ :=
    compaction_discipline p letters 0
  rw [hmade] at hall
  exact ⟨settled, compacted, hmade, hperm, hrun, hall, hleft⟩

end Sortition

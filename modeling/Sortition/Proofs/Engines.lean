import Mathlib.Algebra.Order.Ring.Nat
import Sortition.Container.Deque
import Sortition.Dealer
import Sortition.Engine.ChaCha
import Sortition.Proofs.Picking
import Sortition.Proofs.Trimming
import Sortition.Proofs.Unordered

/-!
# Every engine answers in range

A number in a range is made from words by multiplying and dividing, and it may be raised by one
afterwards, when a second word says that there was a carry.  So it has to be seen that the numbers
stay below the upper end: the highest of them could not bear the carry (`high_succ_lt`).  A range of
all words comes out as zero, and then any word will do.

An engine that runs out of words answers nothing.  A `Tireless` engine never does, and that is all
that is asked here of an engine; what its words are is of no consequence.

* `Always P d` says that a draw returns from whatever state, and with a value that satisfies `P`.
* `always_uniform` is the main lemma, about a number in a range; `runFrom_uniform_of_lt` is about
  ranges that are empty.
* `always_pickUniform`, `always_pickRanked`, `always_trim` and `always_trim_unordered` say what it
  means for picks and for trimming.
* `engine_in_range` puts all of this together.
-/

set_option autoImplicit false

namespace Sortition

variable {σ ε τ C α β : Type}

/-! ## Draws that return -/

/-- From every state, a draw returns, and with a value that satisfies `P`. -/
def Always (P : α → Prop) (d : Draw σ α) : Prop :=
  ∀ s, ∃ a s', d.runFrom s = (.ok a, s') ∧ P a

theorem Always.imp {P Q : α → Prop} {d : Draw σ α} (h : Always P d) (hPQ : ∀ a, P a → Q a) :
    Always Q d := by
  intro s
  obtain ⟨a, s', hrun, ha⟩ := h s
  exact ⟨a, s', hrun, hPQ a ha⟩

theorem always_pure {P : α → Prop} {a : α} (h : P a) : Always P (pure a : Draw σ α) :=
  fun s => ⟨a, s, rfl, h⟩

theorem Always.bind {P : α → Prop} {Q : β → Prop} {d : Draw σ α} {f : α → Draw σ β}
    (h : Always P d) (hf : ∀ a, P a → Always Q (f a)) : Always Q (d >>= f) := by
  intro s
  obtain ⟨a, s', hrun, ha⟩ := h s
  obtain ⟨b, s'', hrun', hb⟩ := hf a ha s'
  exact ⟨b, s'', (DrawT.runFrom_bind_of_ok hrun).trans hrun', hb⟩

theorem always_map {P : β → Prop} {f : α → β} {d : Draw σ α} :
    Always P (f <$> d) ↔ Always (fun a => P (f a)) d := by
  constructor
  · intro h s
    obtain ⟨b, s', hmap, hb⟩ := h s
    obtain ⟨a, hrun, rfl⟩ := DrawT.exists_of_runFrom_map hmap
    exact ⟨a, s', hrun, hb⟩
  · intro h s
    obtain ⟨a, s', hrun, ha⟩ := h s
    exact ⟨f a, s', DrawT.runFrom_map_of_ok f hrun, ha⟩

/-- Engines that have a next word in every state. -/
class Tireless (σ : Type) [Engine σ] : Prop where
  nextU32 : Always (fun _ => True) (Engine.nextU32 : Draw σ UInt32)
  nextU64 : Always (fun _ => True) (Engine.nextU64 : Draw σ UInt64)

instance : Tireless SplitMix where
  nextU32 _ := ⟨_, _, rfl, trivial⟩
  nextU64 _ := ⟨_, _, rfl, trivial⟩

instance : Tireless ChaCha where
  nextU32 _ := ⟨_, _, rfl, trivial⟩
  nextU64 _ := ⟨_, _, rfl, trivial⟩

theorem Always.onEngine [Seedable ε] {P : α → Prop} {d : Draw ε α} (h : Always P d) :
    Always P (Dealer.onEngine d) := by
  intro dealer
  obtain ⟨a, engine, hrun, ha⟩ := h dealer.started
  refine ⟨a, { dealer with engine := some engine }, ?_, ha⟩
  rw [Dealer.onEngine, DrawT.runFrom_onPart, hrun]
  rfl

instance [Seedable ε] [Tireless ε] : Tireless (Dealer ε) where
  nextU32 := Always.onEngine Tireless.nextU32
  nextU64 := Always.onEngine Tireless.nextU64

/-! ## The arithmetic of a draw -/

section

variable {count word range : Nat}

/-- The upper part of a product with a word is below the other factor. -/
theorem mul_div_lt (hword : word < count) (hrange : 0 < range) : word * range / count < range :=
  Nat.div_lt_of_lt_mul (Nat.mul_lt_mul_of_pos_right hword hrange)

/-- **There is room for a carry where one may come.**  If the lower part of the product is large,
then the upper part is not the highest possible. -/
theorem high_succ_lt (hword : word < count) (hrange : range ≤ count)
    (hlow : count - range < word * range % count) : word * range / count + 1 < range := by
  have hproduct : count * (word * range / count) + word * range % count = word * range :=
    Nat.div_add_mod _ _
  have hword : word * range + range ≤ count * range := by
    rw [← Nat.succ_mul]
    exact Nat.mul_le_mul_right range hword
  by_contra hhigh
  -- otherwise the upper part alone nearly makes up the largest product
  have hlarge : count * range ≤ count * (word * range / count + 1) :=
    Nat.mul_le_mul_left count (by omega)
  rw [Nat.mul_succ] at hlarge
  omega

theorem carry_le (low more : Nat) : Engine.carry count low more ≤ 1 := by
  rw [Engine.carry]
  split <;> omega

end

theorem WordWidth.count_pos (width : WordWidth) : 0 < width.count := by
  cases width <;> decide

/-! ## A number in a range -/

section

variable [Engine σ]

/-- **An empty range is refused before any word is taken**, by every engine in every state. -/
theorem runFrom_uniform_of_lt {lo hi : Nat} (h : hi < lo) (s : σ) :
    (Engine.uniform lo hi).runFrom s = (.error (.emptyRange lo hi), s) := by
  rw [Engine.uniform, if_pos h]
  rfl

variable [Tireless σ]

theorem always_word (width : WordWidth) :
    Always (fun word => word < width.count) (Engine.word width : Draw σ Nat) := by
  cases width with
  | bits32 => exact always_map.2 (Tireless.nextU32.imp fun w _ => w.toNat_lt_size)
  | bits64 => exact always_map.2 (Tireless.nextU64.imp fun w _ => w.toNat_lt_size)

/-- A number below `range`, or any word if `range` is zero. -/
theorem always_below {width : WordWidth} {range : Nat} (hrange : range ≤ width.count) :
    Always (fun x => if range = 0 then x < width.count else x < range)
      (Engine.below width range : Draw σ Nat) := by
  unfold Engine.below
  refine (always_word width).bind fun first hfirst => ?_
  by_cases hzero : range = 0
  · simp only [hzero, if_true]
    exact always_pure hfirst
  · have hpos : 0 < range := by omega
    simp only [hzero, if_false]
    by_cases hlow : width.count - range < first * range % width.count
    · rw [if_pos hlow]
      refine (always_word width).bind fun second _ => always_pure ?_
      have hhigh := high_succ_lt hfirst hrange hlow
      have hcarry : Engine.carry width.count (first * range % width.count)
          (second * range / width.count) ≤ 1 := carry_le _ _
      omega
    · rw [if_neg hlow]
      exact always_pure (mul_div_lt hfirst hpos)

/-- A range of any size, which comes out as zero if it has as many numbers as there are words. -/
theorem always_below_mod (width : WordWidth) {range : Nat} (h : 0 < range) :
    Always (· < range) (Engine.below width (range % width.count) : Draw σ Nat) := by
  have hmod : range % width.count < width.count := Nat.mod_lt _ width.count_pos
  refine (always_below hmod.le).imp fun x hx => ?_
  by_cases hzero : range % width.count = 0
  · rw [if_pos hzero] at hx
    exact hx.trans_le (Nat.le_of_dvd h (Nat.dvd_of_mod_eq_zero hzero))
  · rw [if_neg hzero] at hx
    exact hx.trans_le (Nat.mod_le _ _)

/-- **A number between two ends, both included**, whatever they are. -/
theorem always_uniform {lo hi : Nat} (h : lo ≤ hi) :
    Always (fun x => lo ≤ x ∧ x ≤ hi) (Engine.uniform lo hi : Draw σ Nat) := by
  rw [Engine.uniform, if_neg (by omega)]
  refine (always_below_mod (WordWidth.fitting hi) (Nat.succ_pos (hi - lo))).bind
    fun offset hoffset => always_pure ?_
  omega

end

/-! ## Picks -/

section

variable [Engine σ] [Tireless σ]

theorem always_pickUniform [Sequence C α] [LawfulSequence C α] {c : C}
    (h : 0 < Sequence.size c) : Always (· ∈ Sequence.toList c) (pickUniform c : Draw σ α) := by
  rw [pickUniform, if_neg (by omega)]
  refine (always_uniform (Nat.zero_le _)).bind fun i hi => ?_
  have hlt : i < (Sequence.toList c).length := by
    rw [← LawfulSequence.size_eq]
    omega
  rw [elementAt, LawfulSequence.get?_eq, List.getElem?_eq_getElem hlt]
  exact always_pure (List.getElem_mem hlt)

theorem always_pickRanked {found : List α} (h : found ≠ []) :
    Always (fun a => ∃ b ∈ found, a = some b) (pickRanked found : Draw σ (Option α)) := by
  have hlength : 0 < found.length := List.length_pos_iff.2 h
  rw [pickRanked, if_neg (by simpa using h)]
  refine (always_uniform (Nat.zero_le _)).bind fun rank hrank => ?_
  have hlt : rank < found.length := by omega
  rw [List.getElem?_eq_getElem hlt]
  exact always_pure ⟨_, List.getElem_mem hlt, rfl⟩

/-! ## Trimming -/

theorem always_trim_list (k : Nat) (items : List α) :
    Always (fun left => left.Sublist items ∧ left.length = min items.length k)
      (trim k items : Draw σ (List α)) := by
  intro s
  have hhonest : Honest (countdown items.length) s :=
    honest_countdown (fun n s => always_uniform (by omega) s) items.length s
  obtain ⟨answers, s', hanswered, hfits⟩ := hhonest.exists_answered
  by_cases hle : items.length ≤ k
  · rw [trim_list, if_pos hle]
    exact ⟨items, s, rfl, .refl _, by omega⟩
  · refine ⟨_, _, runFrom_trim_list (by omega) hanswered (not_overdraws_of_fits hfits),
      marked_sublist _ _, ?_⟩
    rw [length_marked_marksOf hfits (by omega)]
    omega

theorem always_trim [Erasable C α] [LawfulErasable C α] (k : Nat) (c : C) :
    Always (fun left => (Sequence.toList left).Sublist (Sequence.toList c) ∧
      Sequence.size left = min (Sequence.size c) k) (trim k c : Draw σ C) := by
  have hlist : Always _ (trim k (Sequence.toList c) : Draw σ (List α)) := always_trim_list k _
  rw [← toList_trim, always_map] at hlist
  simpa only [LawfulSequence.size_eq] using hlist

theorem always_trim_unordered [Erasable C α] [Unordered C α] (k : Nat) (c : C) :
    Always (fun left => bag left ≤ bag c ∧ Sequence.size left = min (Sequence.size c) k)
      (trim k c : Draw σ C) := by
  have hlist : Always (fun left : Multiset α => left ≤ bag c ∧ left.card = min (bag c).card k)
      ((fun left : List α => (left : Multiset α)) <$> trim k (Sequence.toList c) : Draw σ _) :=
    always_map.2 ((always_trim_list k _).imp fun left h => ⟨Multiset.coe_le.2 h.1.subperm, h.2⟩)
  rw [← bag_trim, always_map] at hlist
  simpa only [card_bag] using hlist

end

/-! ## Engines as sources -/

/-- **Every engine answers in range.**  A range whose lower end is above its upper end is a fault,
and the engine is as it was, whatever the engine.  And of an engine that never runs out of words, in
whatever state it is:

* a number between two ends is between them, also if all words are;
* an element is picked from a sequence that has one, and an element that a predicate accepts, if
  there is one;
* of a container, with an order or without, there are left as many elements as there may be, and
  they are elements that it had. -/
theorem engine_in_range [Engine σ] :
    (∀ (lo hi : Nat) (s : σ), hi < lo →
      (Source.uniform lo hi).runFrom s = (.error (.emptyRange lo hi), s)) ∧
    ∀ [Tireless σ],
      (∀ lo hi : Nat, lo ≤ hi →
        Always (fun x => lo ≤ x ∧ x ≤ hi) (Source.uniform lo hi : Draw σ Nat)) ∧
      (∀ (C α : Type) [Sequence C α] [LawfulSequence C α] (c : C), 0 < Sequence.size c →
        Always (· ∈ Sequence.toList c) (pickUniform c : Draw σ α)) ∧
      (∀ (C α τ : Type) [Sequence C α] (p : α → StateM τ Bool) (c : C) (memory : τ) (s : σ),
        let told := ((Sequence.toList c).mapM p).run memory
        let matching := marked told.1 (Sequence.toList c)
        matching ≠ [] → ∃ a ∈ matching, ∃ s',
          ((pickIf p c).runFrom s).run memory = ((.ok (some a), s'), told.2)) ∧
      (∀ (C α : Type) [Erasable C α] [LawfulErasable C α] (k : Nat) (c : C),
        Always (fun left => (Sequence.toList left).Sublist (Sequence.toList c) ∧
          Sequence.size left = min (Sequence.size c) k) (trim k c : Draw σ C)) ∧
      (∀ (C α : Type) [Erasable C α] [Unordered C α] (k : Nat) (c : C),
        Always (fun left => bag left ≤ bag c ∧ Sequence.size left = min (Sequence.size c) k)
          (trim k c : Draw σ C)) := by
  refine ⟨fun lo hi s h => runFrom_uniform_of_lt h s, ?_⟩
  intro _
  refine ⟨fun lo hi h => always_uniform h, fun C α _ _ c h => always_pickUniform h, ?_,
    fun C α _ _ k c => always_trim k c, fun C α _ _ k c => always_trim_unordered k c⟩
  intro C α τ _ p c memory s told matching hmatching
  have hranked : Always (fun a => ∃ b ∈ matching, a = some b)
      (pickRanked matching : Draw σ (Option α)) := always_pickRanked hmatching
  obtain ⟨_, s', hrun, a, hmem, rfl⟩ := hranked s
  refine ⟨a, hmem, s', ?_⟩
  rw [runFrom_pickIf, StateT.run_map, siftM_eq_mapM, StateT.run_map]
  exact congrArg (fun drawn => (drawn, told.2)) hrun

/-- An engine without a word refuses the empty range all the same.  The stream cipher draws from a
range of all words, and a dealer cuts a deque down to two letters. -/
theorem engine_in_range_letters :
    let letters : Deque Char := ⟨#['b', 'a'], #['a', 'd', 'a']⟩
    (Source.uniform 5 4).runFrom (⟨[], 0⟩ : Words) = (.error (.emptyRange 5 4), ⟨[], 0⟩) ∧
    (∃ x s', (Source.uniform 0 18446744073709551615).runFrom (Seedable.ofSeed 7 : ChaCha) =
      (.ok x, s') ∧ 0 ≤ x ∧ x ≤ 18446744073709551615) ∧
    ∃ (left : Deque Char) (after : Dealer SplitMix),
      (trim 2 letters).runFrom (Dealer.seeded 3) = (.ok left, after) ∧
      (Sequence.toList left).Sublist ['a', 'b', 'a', 'd', 'a'] ∧ Sequence.size left = 2 := by
  intro letters
  obtain ⟨hempty, -⟩ := @engine_in_range Words _
  obtain ⟨-, hcipher⟩ := @engine_in_range ChaCha _
  obtain ⟨hrange, -⟩ := @hcipher inferInstance
  obtain ⟨-, hdealer⟩ := @engine_in_range (Dealer SplitMix) _
  obtain ⟨-, -, -, htrim, -⟩ := @hdealer inferInstance
  exact ⟨hempty 5 4 _ (by decide), hrange _ _ (by decide) _, htrim _ _ 2 letters _⟩

end Sortition

import Mathlib.Data.Bool.Count
import Mathlib.Data.Nat.Choose.Basic
import Mathlib.Data.Nat.Count
import Mathlib.Probability.Distributions.Uniform
import Sortition.Proofs.Trimming

/-!
# Every selection is equally likely

Trimming `n` elements to `k` makes `n` draws, whose ranges do not depend on the answers, so that
there are `n!` sequences of answers in range.  Each of them leaves the elements at some `k`
positions, and each set of `k` positions is left by `k! * (n - k)!` of them: that is
`trim_uniform`, and the probabilities are the quotients.

Nothing can be said of a single draw here, since what a number between one and `n - i` decides
depends on how many of the first `i` elements were kept.  The count goes along the marks instead.
A first mark of `true` leaves as many numbers to choose from as there are marks of `true`, a first
mark of `false` as many as there are marks of `false`, and what is left to be counted is the same
for the other marks (`card_filter_marksOf`).
-/

set_option autoImplicit false

open Finset
open scoped Nat ENNReal

namespace Sortition

/-! ## Answers in range -/

/-- Consing as an embedding of pairs. -/
def consPair : Nat × List Nat ↪ List Nat where
  toFun p := p.1 :: p.2
  inj' _ _ h := Prod.ext (List.cons.inj h).1 (List.cons.inj h).2

@[simp] theorem consPair_apply (p : Nat × List Nat) : consPair p = p.1 :: p.2 := rfl

/-- The answers in range to the requests of `countdown n`: the first between one and `n`, the next
between one and `n - 1`, and so on. -/
def honestAnswers : Nat → Finset (List Nat)
  | 0 => {[]}
  | n + 1 => (Icc 1 (n + 1) ×ˢ honestAnswers n).map consPair

@[simp] theorem cons_mem_honestAnswers {n drawn : Nat} {answers : List Nat} :
    drawn :: answers ∈ honestAnswers (n + 1) ↔
      drawn ∈ Icc 1 (n + 1) ∧ answers ∈ honestAnswers n := by
  simp [honestAnswers]

@[simp] theorem nil_notMem_honestAnswers {n : Nat} : [] ∉ honestAnswers (n + 1) := by
  simp [honestAnswers]

theorem mem_honestAnswers : ∀ {n : Nat} {answers : List Nat},
    answers ∈ honestAnswers n ↔ List.Forall₂ Request.Fits (countdown n) answers
  | 0, answers => by simp [honestAnswers, countdown]
  | n + 1, [] => by simp [countdown]
  | n + 1, drawn :: answers => by
    rw [cons_mem_honestAnswers, mem_honestAnswers, mem_Icc, countdown, List.forall₂_cons,
      Request.Fits]

/-- The sequences of answers that begin in one way and go on in another are counted apart. -/
theorem card_filter_honestAnswers_succ {n : Nat} {P : List Nat → Prop} {first : Nat → Prop}
    {rest : List Nat → Prop} [DecidablePred P] [DecidablePred first] [DecidablePred rest]
    (h : ∀ drawn answers, P (drawn :: answers) ↔ first drawn ∧ rest answers) :
    #{answers ∈ honestAnswers (n + 1) | P answers} =
      #{drawn ∈ Icc 1 (n + 1) | first drawn} * #{answers ∈ honestAnswers n | rest answers} := by
  rw [honestAnswers, filter_map, card_map, ← card_product, ← filter_product]
  congr 1
  ext p
  simp [h]

theorem card_honestAnswers : ∀ n, #(honestAnswers n) = n !
  | 0 => rfl
  | n + 1 => by
    rw [honestAnswers, card_map, card_product, Nat.card_Icc, card_honestAnswers n,
      Nat.factorial_succ]
    rfl

/-! ## Counting along the marks -/

/-- The first mark leaves one number more to choose from than there are equal marks behind it. -/
theorem card_filter_first (mark : Bool) (marks : List Bool) :
    #{drawn ∈ Icc 1 (marks.length + 1) | decide (drawn ≤ (mark :: marks).count true) = mark} =
      marks.count mark + 1 := by
  have hlength := List.count_true_add_count_false marks
  cases mark with
  | true =>
    have hset : {drawn ∈ Icc 1 (marks.length + 1) |
        decide (drawn ≤ (true :: marks).count true) = true} = Icc 1 (marks.count true + 1) := by
      ext drawn
      simp
      omega
    rw [hset, Nat.card_Icc, Nat.add_sub_cancel]
  | false =>
    have hset : {drawn ∈ Icc 1 (marks.length + 1) |
        decide (drawn ≤ (false :: marks).count true) = false} =
          Ioc (marks.count true) (marks.length + 1) := by
      ext drawn
      simp
      omega
    rw [hset, Nat.card_Ioc]
    omega

theorem marksOf_cons_eq_iff (mark : Bool) (marks : List Bool) (drawn : Nat) (answers : List Nat) :
    marksOf ((mark :: marks).count true) (drawn :: answers) = mark :: marks ↔
      decide (drawn ≤ (mark :: marks).count true) = mark ∧
        marksOf (marks.count true) answers = marks := by
  rw [marksOf, List.cons.injEq]
  refine and_congr_right fun hd => ?_
  rw [hd]
  cases mark <;> simp

/-- **As many answers give some marks as there are orders of the marked and of the unmarked.** -/
theorem card_filter_marksOf (marks : List Bool) :
    #{answers ∈ honestAnswers marks.length | marksOf (marks.count true) answers = marks} =
      (marks.count true)! * (marks.count false)! := by
  induction marks with
  | nil => rfl
  | cons mark marks ih =>
    rw [List.length_cons, card_filter_honestAnswers_succ (marksOf_cons_eq_iff mark marks), ih,
      card_filter_first]
    cases mark with
    | true => simp [Nat.factorial_succ, Nat.mul_assoc]
    | false => simp [Nat.factorial_succ, Nat.mul_left_comm]

/-! ## Sets of positions -/

/-- The marks, in a list of `n`, of the positions in a set. -/
def marksAt (S : Finset Nat) (n : Nat) : List Bool := (List.range n).map fun i => decide (i ∈ S)

/-- The items at the positions in a set, in their order. -/
def itemsAt {α : Type} (S : Finset Nat) (items : List α) : List α :=
  marked (marksAt S items.length) items

/-- The positions that carry a mark. -/
def markedPositions (marks : List Bool) : Finset Nat :=
  {i ∈ range marks.length | marks[i]? = some true}

/-- The positions of the items that some answers keep when there is room for `k`. -/
def keptPositions (k : Nat) (answers : List Nat) : Finset Nat := markedPositions (marksOf k answers)

theorem length_marksAt (S : Finset Nat) (n : Nat) : (marksAt S n).length = n := by
  simp [marksAt]

theorem marksAt_markedPositions (marks : List Bool) :
    marksAt (markedPositions marks) marks.length = marks := by
  refine List.ext_getElem (length_marksAt _ _) fun i _ hi => ?_
  simp [marksAt, markedPositions, hi]

theorem markedPositions_marksAt {S : Finset Nat} {n : Nat} (hS : S ⊆ range n) :
    markedPositions (marksAt S n) = S := by
  ext i
  by_cases hi : i < n
  · simp [markedPositions, marksAt, hi]
  · have hnot : i ∉ S := fun h => hi (mem_range.1 (hS h))
    simp [markedPositions, marksAt, hi, hnot]

theorem markedPositions_eq_iff {marks : List Bool} {S : Finset Nat} {n : Nat}
    (hmarks : marks.length = n) (hS : S ⊆ range n) :
    markedPositions marks = S ↔ marks = marksAt S n := by
  constructor
  · rintro rfl
    rw [← hmarks, marksAt_markedPositions]
  · rintro rfl
    exact markedPositions_marksAt hS

theorem count_true_marksAt {S : Finset Nat} {n : Nat} (hS : S ⊆ range n) :
    (marksAt S n).count true = #S := by
  have hfilter : {i ∈ range n | i ∈ S} = S := by
    rw [filter_mem_eq_inter, inter_eq_right.2 hS]
  rw [marksAt, List.count_eq_countP, List.countP_map, ← hfilter, ← Nat.count_eq_card_filter_range,
    Nat.count, hfilter]
  simp [Function.comp_def]

theorem card_markedPositions (marks : List Bool) : #(markedPositions marks) = marks.count true := by
  have hS : markedPositions marks ⊆ range marks.length := filter_subset _ _
  rw [← count_true_marksAt hS, marksAt_markedPositions]

/-! ## Drawing at random -/

/-- The law of the answers to a countdown when each of them is uniform in its range, whatever the
answers before it were. -/
noncomputable def uniformAnswers : Nat → PMF (List Nat)
  | 0 => .pure []
  | n + 1 => (PMF.uniformOfFinset (Icc 1 (n + 1)) (nonempty_Icc.2 (by omega))).bind fun drawn =>
      (uniformAnswers n).map (drawn :: ·)

theorem uniformAnswers_apply : ∀ (n : Nat) (answers : List Nat),
    uniformAnswers n answers = if answers ∈ honestAnswers n then ((n ! : Nat) : ℝ≥0∞)⁻¹ else 0
  | 0, answers => by simp [uniformAnswers, honestAnswers, PMF.pure_apply]
  | n + 1, [] => by simp [uniformAnswers, PMF.bind_apply, PMF.map_apply]
  | n + 1, drawn :: answers => by
    have hcons : ∀ other, ((uniformAnswers n).map (other :: ·)) (drawn :: answers) =
        if drawn = other then uniformAnswers n answers else 0 := by
      intro other
      rw [PMF.map_apply, tsum_eq_single answers fun rest hrest => by simp [hrest.symm]]
      simp
    have hinv : ((n + 1 : Nat) : ℝ≥0∞)⁻¹ * ((n ! : Nat) : ℝ≥0∞)⁻¹ =
        (((n + 1)! : Nat) : ℝ≥0∞)⁻¹ := by
      rw [Nat.factorial_succ, Nat.cast_mul, ENNReal.mul_inv (by simp) (by simp)]
    rw [uniformAnswers, PMF.bind_apply, tsum_eq_single drawn fun other hother => by
      rw [hcons, if_neg hother.symm, mul_zero], hcons, if_pos rfl, uniformAnswers_apply n answers,
      PMF.uniformOfFinset_apply, Nat.card_Icc, Nat.add_sub_cancel, ite_zero_mul_ite_zero, hinv]
    simp only [cons_mem_honestAnswers]
    congr

theorem honestAnswers_nonempty (n : Nat) : (honestAnswers n).Nonempty := by
  rw [← card_pos, card_honestAnswers]
  exact Nat.factorial_pos n

theorem uniformAnswers_eq (n : Nat) :
    uniformAnswers n = PMF.uniformOfFinset (honestAnswers n) (honestAnswers_nonempty n) := by
  ext answers
  by_cases hmem : answers ∈ honestAnswers n <;>
    simp [uniformAnswers_apply, card_honestAnswers, hmem]

/-! ## Uniformity -/

section

variable {C α : Type} [Erasable C α] [LawfulErasable C α]

/-- With these answers, trimming ends without a fault, all answers used, and leaves the elements at
the positions in `S`. -/
def Leaves (k : Nat) (c : C) (S : Finset Nat) (answers : List Nat) : Prop :=
  ∃ left : C, (trim k c).runFrom (Script.mk answers) = (.ok left, ⟨[]⟩) ∧
    Sequence.toList left = itemsAt S (Sequence.toList c)

/-- With these answers, trimming leaves the elements at the positions in `S` because it is these
positions that the answers keep.  Equal elements stand at several positions, so that what is left
does not show where it stood; see `leaves_iff_of_nodup`. -/
def LeavesAt (k : Nat) (c : C) (S : Finset Nat) (answers : List Nat) : Prop :=
  keptPositions k answers = S ∧ Leaves k c S answers

theorem keptPositions_mem {n k : Nat} {answers : List Nat} (h : answers ∈ honestAnswers n)
    (hk : k ≤ n) : keptPositions k answers ∈ (range n).powersetCard k := by
  have hfits := mem_honestAnswers.1 h
  have hlength : (marksOf k answers).length = n := length_marksOf_of_fits k hfits
  refine mem_powersetCard.2 ⟨?_, ?_⟩
  · rw [← hlength]
    exact filter_subset _ _
  · rw [keptPositions, card_markedPositions, count_marksOf hfits hk]

theorem leaves_keptPositions {k : Nat} {c : C} (hk : k < Sequence.size c) {answers : List Nat}
    (h : answers ∈ honestAnswers (Sequence.size c)) :
    Leaves k c (keptPositions k answers) answers := by
  have hfits := mem_honestAnswers.1 h
  have hscript : Answered (countdown (Sequence.size c)) (Script.mk answers) answers ⟨[]⟩ := by
    simpa using answered_script hfits.length_eq.symm []
  obtain ⟨left, hrun, hleft⟩ := runFrom_trim hk hscript (not_overdraws_of_fits hfits)
  have hlength : (Sequence.toList c).length = (marksOf k answers).length := by
    rw [length_marksOf_of_fits k hfits, LawfulSequence.size_eq]
  refine ⟨left, hrun, ?_⟩
  rw [hleft, itemsAt, keptPositions, hlength, marksAt_markedPositions]

theorem leavesAt_iff {k : Nat} {c : C} (hk : k < Sequence.size c) {S : Finset Nat}
    {answers : List Nat} (h : answers ∈ honestAnswers (Sequence.size c)) :
    LeavesAt k c S answers ↔ keptPositions k answers = S := by
  refine ⟨fun hleaves => hleaves.1, ?_⟩
  rintro rfl
  exact ⟨rfl, leaves_keptPositions hk h⟩

/-- If the elements differ from each other, what is left shows the positions. -/
theorem leaves_iff_of_nodup {k : Nat} {c : C} (hk : k < Sequence.size c)
    (hnodup : (Sequence.toList c).Nodup) {S : Finset Nat} (hS : S ⊆ range (Sequence.size c))
    {answers : List Nat} (h : answers ∈ honestAnswers (Sequence.size c)) :
    Leaves k c S answers ↔ LeavesAt k c S answers := by
  refine ⟨fun hleaves => ⟨?_, hleaves⟩, fun hleaves => hleaves.2⟩
  obtain ⟨left, hrun, hleft⟩ := hleaves
  -- there is one run only, and it also leaves the positions that the answers keep
  obtain ⟨left', hrun', hleft'⟩ := leaves_keptPositions hk h
  obtain rfl : left = left' := by
    have := hrun.symm.trans hrun'
    cases this
    rfl
  have hmarks : marksAt (keptPositions k answers) (Sequence.size c) =
      marksAt S (Sequence.size c) := by
    rw [LawfulSequence.size_eq]
    exact eq_of_marked_eq hnodup (length_marksAt _ _) (length_marksAt _ _)
      (hleft'.symm.trans hleft)
  have hsub := (mem_powersetCard.1 (keptPositions_mem h hk.le)).1
  rw [← markedPositions_marksAt hsub, hmarks, markedPositions_marksAt hS]

theorem card_filter_keptPositions {n k : Nat} {S : Finset Nat}
    (hS : S ∈ (range n).powersetCard k) :
    #{answers ∈ honestAnswers n | keptPositions k answers = S} = k ! * (n - k)! := by
  obtain ⟨hsub, hcard⟩ := mem_powersetCard.1 hS
  have htrue : (marksAt S n).count true = k := by rw [count_true_marksAt hsub, hcard]
  have hfalse : (marksAt S n).count false = n - k := by
    have := List.count_true_add_count_false (marksAt S n)
    rw [length_marksAt, htrue] at this
    omega
  have hmarks := card_filter_marksOf (marksAt S n)
  rw [length_marksAt, htrue, hfalse] at hmarks
  rw [← hmarks]
  congr 1
  refine filter_congr fun answers h => ?_
  exact markedPositions_eq_iff (length_marksOf_of_fits k (mem_honestAnswers.1 h)) hsub

/-- A part of `k! * (n - k)!` sequences of answers in range has a probability of one to the number
of sets of `k` positions. -/
theorem factorials_div_factorial {n k : Nat} (hk : k ≤ n) :
    ((k ! * (n - k)! : Nat) : ℝ≥0∞) / (n ! : Nat) = ((n.choose k : Nat) : ℝ≥0∞)⁻¹ := by
  have hpos : ((k ! * (n - k)! : Nat) : ℝ≥0∞) ≠ 0 :=
    Nat.cast_ne_zero.2 (Nat.mul_pos (Nat.factorial_pos k) (Nat.factorial_pos (n - k))).ne'
  have hfinite : ((k ! * (n - k)! : Nat) : ℝ≥0∞) ≠ ⊤ := ENNReal.natCast_ne_top _
  rw [← Nat.choose_mul_factorial_mul_factorial hk, Nat.mul_assoc, Nat.cast_mul (n.choose k),
    ENNReal.div_eq_inv_mul, ENNReal.mul_inv (.inr hfinite) (.inr hpos), mul_assoc,
    ENNReal.inv_mul_cancel hpos hfinite, mul_one]

open Classical in
/-- **Every selection is equally likely.**  If there are `n > k` elements, each sequence of answers
in range leaves the elements at some set of `k` positions; each set of `k` positions is left by
`k! * (n - k)!` of the sequences, whatever the set; and if every answer is uniform in its range, it
is left with a probability of one to the number of such sets.  If the elements differ from each
other, all of this is about the elements that are left and nothing else. -/
theorem trim_uniform (k : Nat) (c : C) (hk : k < Sequence.size c) :
    (∀ answers ∈ honestAnswers (Sequence.size c),
      ∃ S ∈ (range (Sequence.size c)).powersetCard k, LeavesAt k c S answers) ∧
    ∀ S ∈ (range (Sequence.size c)).powersetCard k,
      #{answers ∈ honestAnswers (Sequence.size c) | LeavesAt k c S answers} =
        k ! * (Sequence.size c - k)! ∧
      (uniformAnswers (Sequence.size c)).toOuterMeasure {answers | LeavesAt k c S answers} =
        (((Sequence.size c).choose k : Nat) : ℝ≥0∞)⁻¹ ∧
      ((Sequence.toList c).Nodup → ∀ answers ∈ honestAnswers (Sequence.size c),
        (Leaves k c S answers ↔ LeavesAt k c S answers)) := by
  refine ⟨fun answers h => ⟨_, keptPositions_mem h hk.le, (leavesAt_iff hk h).2 rfl⟩,
    fun S hS => ?_⟩
  have hcount : #{answers ∈ honestAnswers (Sequence.size c) | LeavesAt k c S answers} =
      k ! * (Sequence.size c - k)! := by
    rw [← card_filter_keptPositions hS]
    congr 1
    exact filter_congr fun answers h => leavesAt_iff hk h
  refine ⟨hcount, ?_, fun hnodup answers h =>
    leaves_iff_of_nodup hk hnodup (mem_powersetCard.1 hS).1 h⟩
  rw [uniformAnswers_eq, PMF.toOuterMeasure_uniformOfFinset_apply, card_honestAnswers]
  simp only [Set.mem_ofPred_eq]
  rw [hcount, factorials_div_factorial hk.le]

end

open Classical in
theorem trim_uniform_letters :
    let letters : Traced (Array Char) := ⟨#['a', 'b', 'a', 'd'], []⟩
    2 < Sequence.size letters ∧
      ({0, 2} : Finset Nat) ∈ (range (Sequence.size letters)).powersetCard 2 ∧
      #{answers ∈ honestAnswers (Sequence.size letters) | LeavesAt 2 letters {0, 2} answers} =
        2 ! * 2 ! := by
  intro letters
  have hsize : 2 < Sequence.size letters := by decide
  have hS : ({0, 2} : Finset Nat) ∈ (range (Sequence.size letters)).powersetCard 2 := by decide
  exact ⟨hsize, hS, ((trim_uniform 2 letters hsize).2 {0, 2} hS).1⟩

end Sortition

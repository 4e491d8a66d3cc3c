import Mathlib
import Sortition.Proofs.Engines
import Sortition.Proofs.Uniformity

/-!
# Every rearrangement comes of one list of positions

To shuffle, the position `i` changes places with a position among the first `i + 1`.  There are `n!`
ways to choose these for a slice of `n` elements, and as many ways to rearrange it, and the first
are the second: that is `existsUnique_exchangeAll`.  The exchanges are compared from the front,
where two runs have not yet gone apart behind the position that they have reached, and what they
made before it can be read off in the end (`eq_of_exchangeAll_eq`).

The positions of a slice that is not too long come as digits of a numeral, several of them from one
draw, and the bounds of the digits rise with every one that is cut off.  What keeps them in range is
that the numeral is below the product of the bounds still to come (`IndexCutter.Fits`).  With the
last digit of a numeral nothing is left of this product, and the next numeral is drawn.  The
positions of a longer slice are numbers in a range, each by itself.

* `indexLists i n` are the lists of `n` positions of which the first is at most `i`, the second at
  most `i + 1`, and so on.
* `always_shuffleIndices` says that a tireless engine draws such a list.
* `exchangeAll_of_mem` says that to exchange by such a list stays inside the slice and rearranges
  it.
* `shuffle_exact` is the main statement.
-/

set_option autoImplicit false

open Finset
open scoped Nat

namespace Sortition

variable {α β σ : Type}

/-! ## Lists of positions -/

/-- The lists of `n` positions that may change places with `i` and the `n - 1` positions behind it,
in turn: each of them stands no further back than the position it changes places with. -/
def indexLists : Nat → Nat → Finset (List Nat)
  | _, 0 => {[]}
  | i, n + 1 => (range (i + 1) ×ˢ indexLists (i + 1) n).map consPair

@[simp] theorem cons_mem_indexLists {i n j : Nat} {rest : List Nat} :
    j :: rest ∈ indexLists i (n + 1) ↔ j ≤ i ∧ rest ∈ indexLists (i + 1) n := by
  simp [indexLists]

@[simp] theorem nil_notMem_indexLists {i n : Nat} : [] ∉ indexLists i (n + 1) := by
  simp [indexLists]

theorem mem_indexLists {i n : Nat} {indices : List Nat} : indices ∈ indexLists i n ↔
    indices.length = n ∧ ∀ (k : Nat) (h : k < indices.length), indices[k] ≤ i + k := by
  induction n generalizing i indices with
  | zero =>
    simp only [indexLists, mem_singleton, List.length_eq_zero_iff, iff_self_and]
    rintro rfl k h
    cases h
  | succ n ih =>
    cases indices with
    | nil => simp
    | cons j rest =>
      rw [cons_mem_indexLists, ih]
      constructor
      · rintro ⟨hj, rfl, hrest⟩
        refine ⟨rfl, fun k h => ?_⟩
        cases k with
        | zero => exact hj
        | succ k =>
          have := hrest k (by simpa using h)
          simp only [List.getElem_cons_succ]
          omega
      · rintro ⟨hlength, hall⟩
        refine ⟨hall 0 (by simp), by simpa using hlength, fun k h => ?_⟩
        have := hall (k + 1) (by simpa using h)
        simp only [List.getElem_cons_succ] at this
        omega

theorem card_indexLists (i n : Nat) : #(indexLists i n) = (i + 1).ascFactorial n := by
  induction n generalizing i with
  | zero => rfl
  | succ n ih =>
    rw [indexLists, card_map, card_product, card_range, ih, Nat.ascFactorial_succ]
    exact Nat.succ_ascFactorial (i + 1) n

/-! ## Cutting positions off -/

theorem longestProduct_eq (room n : Nat) :
    (longestProduct room n).1 = n.ascFactorial (longestProduct room n).2 := by
  fun_induction longestProduct room n with
  | case1 room n h rest ih =>
    rw [Nat.ascFactorial_succ, ← Nat.succ_ascFactorial]
    exact congrArg (n * ·) ih
  | case2 room n h => rfl

namespace IndexCutter

/-- The digits that a cutter has left are in range: its numeral is below the product of their
bounds.  Without digits nothing is asked of the numeral. -/
def Fits (s : IndexCutter) : Prop :=
  s.digits = 0 ∨ s.numeral < (s.cut + 1).ascFactorial s.digits

theorem fits_start : start.Fits := .inr Nat.one_pos

/-- **The next digit is in range, and the digits behind it still are.** -/
theorem cutDigit_spec {s : IndexCutter} (h : s.numeral < (s.cut + 1).ascFactorial s.digits) :
    s.cutDigit.1 ≤ s.cut ∧ s.cutDigit.2.cut = s.cut + 1 ∧ s.cutDigit.2.Fits := by
  obtain ⟨cut, numeral, digits⟩ := s
  rcases digits with _ | _ | d
  · exact ⟨Nat.le_trans (Nat.le_of_lt_succ h) (Nat.zero_le _), rfl, .inl rfl⟩
  · -- all that is left of the numeral is the digit
    refine ⟨?_, rfl, .inl rfl⟩
    rw [Nat.ascFactorial_succ, Nat.ascFactorial_zero, Nat.mul_one] at h
    exact Nat.le_of_lt_succ h
  · refine ⟨Nat.le_of_lt_succ (Nat.mod_lt _ (Nat.succ_pos _)), rfl, .inr ?_⟩
    rw [Nat.ascFactorial_succ, ← Nat.succ_ascFactorial] at h
    exact Nat.div_lt_of_lt_mul h

section

variable [Engine σ] [Tireless σ]

/-- A numeral that is drawn has all its digits in range. -/
theorem always_refill {s : IndexCutter} (h : s.Fits) :
    Always (fun t => t.cut = s.cut ∧ t.numeral < (t.cut + 1).ascFactorial t.digits)
      (s.refill : Draw σ IndexCutter) := by
  unfold refill
  split
  · have hpos := Nat.ascFactorial_pos s.cut (longestProduct room (s.cut + 1)).2
    refine (always_uniform (Nat.zero_le _)).bind fun numeral hnumeral => always_pure ⟨rfl, ?_⟩
    rw [longestProduct_eq] at hnumeral
    exact Nat.lt_of_le_of_lt hnumeral.2 (Nat.sub_lt hpos Nat.one_pos)
  · exact always_pure ⟨rfl, h.resolve_left (by assumption)⟩

theorem always_takeIndices (n : Nat) {s : IndexCutter} (h : s.Fits) :
    Always (· ∈ indexLists s.cut n) (s.takeIndices n : Draw σ (List Nat)) := by
  induction n generalizing s with
  | zero => exact always_pure (by simp [indexLists])
  | succ n ih =>
    unfold takeIndices
    refine (always_refill h).bind fun t ht => ?_
    obtain ⟨hcut, hnumeral⟩ := ht
    obtain ⟨hindex, hnext, hfits⟩ := cutDigit_spec hnumeral
    refine (ih hfits).bind fun rest hrest => always_pure ?_
    rw [hnext, hcut] at hrest
    exact cons_mem_indexLists.2 ⟨hcut ▸ hindex, hrest⟩

end

end IndexCutter

section

variable [Engine σ] [Tireless σ]

theorem always_drawIndices (i n : Nat) :
    Always (· ∈ indexLists i n) (drawIndices i n : Draw σ (List Nat)) := by
  induction n generalizing i with
  | zero => exact always_pure (by simp [indexLists])
  | succ n ih =>
    unfold drawIndices
    refine (always_below_mod _ (Nat.succ_pos i)).bind fun index hindex => ?_
    refine (ih (i + 1)).bind fun rest hrest => always_pure ?_
    exact cons_mem_indexLists.2 ⟨Nat.le_of_lt_succ hindex, hrest⟩

/-- **A position to change places with is drawn for each, and none stands behind it.** -/
theorem always_shuffleIndices {n : Nat} (h : 1 < n) :
    Always (· ∈ indexLists 0 n) (shuffleIndices n : Draw σ (List Nat)) := by
  rw [shuffleIndices, if_neg (by omega)]
  split
  · exact IndexCutter.always_takeIndices n IndexCutter.fits_start
  · exact always_drawIndices 0 n

end

/-! ## Exchanging -/

theorem exchangeAll_cons {items : Array α} {i j : Nat} (hi : i < items.size) (hj : j < items.size)
    (rest : List Nat) : exchangeAll items i (j :: rest) =
      exchangeAll (items.swap i j hi hj) (i + 1) rest := by
  rw [exchangeAll, dif_pos ⟨hi, hj⟩]

/-- **To exchange by positions in range stays inside the slice, and rearranges it.** -/
theorem exchangeAll_of_mem {items : Array α} {i n : Nat} {indices : List Nat}
    (h : indices ∈ indexLists i n) (hsize : i + n ≤ items.size) :
    ∃ out, exchangeAll items i indices = .ok out ∧ out.Perm items := by
  induction n generalizing items i indices with
  | zero =>
    obtain rfl := mem_singleton.1 h
    exact ⟨items, rfl, .refl items⟩
  | succ n ih =>
    rcases indices with _ | ⟨j, rest⟩
    · exact absurd h nil_notMem_indexLists
    · obtain ⟨hj, hrest⟩ := cons_mem_indexLists.1 h
      have hi : i < items.size := by omega
      have hj : j < items.size := by omega
      obtain ⟨out, hout, hperm⟩ := @ih (items.swap i j hi hj) _ _ hrest
        (by rw [Array.size_swap]; omega)
      exact ⟨out, (exchangeAll_cons hi hj rest).trans hout, hperm.trans (Array.swap_perm hi hj)⟩

/-- Exchanging does not look at the elements. -/
theorem exchangeAll_map (f : α → β) (items : Array α) (i : Nat) (indices : List Nat) :
    exchangeAll (items.map f) i indices = (exchangeAll items i indices).map (Array.map f) := by
  induction indices generalizing items i with
  | nil => rfl
  | cons j rest ih =>
    by_cases h : i < items.size ∧ j < items.size
    · have hswap : (items.map f).swap i j (by simpa using h.1) (by simpa using h.2) =
          (items.swap i j h.1 h.2).map f := by
        ext k <;> simp [Array.getElem_swap, apply_ite f]
      rw [exchangeAll_cons h.1 h.2, ← ih, ← hswap,
        exchangeAll_cons (by simpa using h.1) (by simpa using h.2)]
    · rw [exchangeAll, exchangeAll, dif_neg h, dif_neg (by simpa using h), Array.size_map]
      rfl

/-- **Two runs that end alike have exchanged alike.**  They may have begun with two arrangements of
a slice that are not yet known to be the same, but for what stands at `i` and behind it.  As the
element at `i` is in both, and goes to the position that is drawn, the two positions are the same if
the elements end up the same. -/
theorem eq_of_exchangeAll_eq {items items' : Array α} {i n : Nat} {indices indices' : List Nat}
    (hnodup : items.toList.Nodup) (hsize : items.size = items'.size)
    (hbehind : ∀ k, i ≤ k → items[k]? = items'[k]?) (hn : i + n ≤ items.size)
    (h : indices ∈ indexLists i n) (h' : indices' ∈ indexLists i n)
    (heq : exchangeAll items i indices = exchangeAll items' i indices') :
    indices = indices' ∧ items = items' := by
  induction n generalizing items items' i indices indices' with
  | zero =>
    obtain rfl := mem_singleton.1 h
    obtain rfl := mem_singleton.1 h'
    exact ⟨rfl, Except.ok.inj heq⟩
  | succ n ih =>
    rcases indices with _ | ⟨j, rest⟩
    · exact absurd h nil_notMem_indexLists
    rcases indices' with _ | ⟨j', rest'⟩
    · exact absurd h' nil_notMem_indexLists
    obtain ⟨hj, hrest⟩ := cons_mem_indexLists.1 h
    obtain ⟨hj', hrest'⟩ := cons_mem_indexLists.1 h'
    have hi : i < items.size := by omega
    have hi' : i < items'.size := by omega
    rw [exchangeAll_cons hi (by omega), exchangeAll_cons hi' (by omega)] at heq
    have hnodup' : (items.swap i j hi (by omega)).toList.Nodup :=
      (Array.swap_perm hi (by omega)).toList.nodup_iff.2 hnodup
    obtain ⟨rfl, hswap⟩ := ih hnodup' (by simpa using hsize)
      (fun k hk => by
        rw [Array.getElem?_swap, Array.getElem?_swap, if_neg (by omega), if_neg (by omega),
          if_neg (by omega), if_neg (by omega), hbehind k (by omega)])
      (by rw [Array.size_swap]; omega) hrest hrest' heq
    have hitem : items[i] = items'[i] := by
      have := hbehind i (Nat.le_refl i)
      rwa [Array.getElem?_eq_getElem hi, Array.getElem?_eq_getElem hi', Option.some.injEq] at this
    obtain rfl : j = j' := by
      have hplace : (items.swap i j hi (by omega)).toList[j]? = some items[i] := by
        rw [Array.getElem?_toList, Array.getElem?_swap, if_pos rfl]
      have hplace' : (items.swap i j hi (by omega)).toList[j']? = some items[i] := by
        rw [hswap, Array.getElem?_toList, Array.getElem?_swap, if_pos rfl, hitem]
      obtain ⟨hlt, -⟩ := List.getElem?_eq_some_iff.1 hplace
      exact (List.getElem?_inj hlt hnodup').1 (hplace.trans hplace'.symm)
    have hj : j < items.size := by omega
    have hj' : j < items'.size := by omega
    refine ⟨rfl, ?_⟩
    calc items = (items.swap i j).swap i j (by simpa) (by simpa) := (Array.swap_swap hi hj).symm
      _ = (items'.swap i j).swap i j (by simpa) (by simpa) := by simp only [hswap]
      _ = items' := Array.swap_swap hi' hj'

/-- **Each arrangement of the positions comes of one list.**  There are as many lists as there are
arrangements, and two lists never make the same. -/
theorem existsUnique_exchangeAll {n : Nat} {places : Array Nat}
    (h : places.Perm (Array.range n)) :
    ∃! indices, indices ∈ indexLists 0 n ∧
      exchangeAll (Array.range n) 0 indices = .ok places := by
  have hsize : (Array.range n).size = n := Array.size_range
  have hnodup : (Array.range n).toList.Nodup := by
    rw [Array.toList_range]
    exact List.nodup_range
  have hinj : Set.InjOn (exchangeAll (Array.range n) 0) (indexLists 0 n) :=
    fun indices hindices indices' hindices' heq =>
      (eq_of_exchangeAll_eq hnodup rfl (fun _ _ => rfl) (by omega) hindices hindices' heq).1
  have harrangement : Function.Injective
      fun l : List Nat => (.ok l.toArray : Except Fault (Array Nat)) :=
    fun l l' heq => congrArg Array.toList (Except.ok.inj heq)
  let arrangements : Finset (Except Fault (Array Nat)) :=
    (List.range n).permutations.toFinset.map ⟨_, harrangement⟩
  have hmaps : Set.MapsTo (exchangeAll (Array.range n) 0) (indexLists 0 n) arrangements := by
    intro indices hindices
    obtain ⟨out, hout, hperm⟩ := @exchangeAll_of_mem _ (Array.range n) _ _ _ hindices (by omega)
    have hlist : out.toList.Perm (List.range n) := Array.toList_range ▸ hperm.toList
    rw [hout]
    simp only [arrangements, coe_map, Set.mem_image, mem_coe, List.mem_toFinset,
      List.mem_permutations]
    exact ⟨out.toList, hlist, rfl⟩
  have hcard : (#arrangements) ≤ #(indexLists 0 n) := by
    rw [card_map, List.toFinset_card_of_nodup (List.nodup_permutations _ List.nodup_range),
      List.length_permutations, List.length_range, card_indexLists, Nat.zero_add,
      Nat.one_ascFactorial]
  have hmem : (.ok places : Except Fault (Array Nat)) ∈ arrangements := by
    simp only [arrangements, mem_map, List.mem_toFinset, List.mem_permutations]
    exact ⟨places.toList, Array.toList_range ▸ h.toList, rfl⟩
  obtain ⟨indices, hindices, hplaces⟩ := surjOn_of_injOn_of_card_le _ hmaps hinj hcard hmem
  exact ⟨indices, ⟨hindices, hplaces⟩, fun other hother =>
    hinj hother.1 hindices (hother.2.trans hplaces.symm)⟩

/-- **The elements are rearranged as their positions are.** -/
theorem map_some_exchangeAll (items : Array α) (indices : List Nat) :
    (exchangeAll items 0 indices).map (Array.map some) =
      (exchangeAll (Array.range items.size) 0 indices).map (Array.map fun i => items[i]?) := by
  have hitems : items.map some = (Array.range items.size).map fun i => items[i]? := by
    refine Array.ext (by simp) fun i h h' => ?_
    have hi : i < items.size := by simpa using h
    simp [hi]
  rw [← exchangeAll_map, ← exchangeAll_map, hitems]

/-! ## The main statement -/

theorem runFrom_shuffle [Engine σ] (items : Array α) (s : σ) {indices : List Nat} {s' : σ}
    {out : Array α} (hdrawn : (shuffleIndices items.size).runFrom s = (.ok indices, s'))
    (hout : exchangeAll items 0 indices = .ok out) : (shuffle items).runFrom s = (.ok out, s') := by
  rw [shuffle, DrawT.runFrom_bind_of_ok hdrawn, hout]
  rfl

/-- **A shuffle chooses one rearrangement of the positions.**

* For a slice of `n` elements there are `n!` lists of `n` positions of which the one at `i` is at
  most `i`.  To exchange by such a list never leaves the slice.  It takes the positions to an
  arrangement of them, and the elements to where their positions are taken, so that they are the
  same elements.
* Each arrangement of the positions comes of one such list, and of one only.
* A slice of one element or none is left as it is, and so is the engine.
* For any other slice, an engine that never runs out of words gives such a list, and to exchange by
  it is all that is done.

A dealer shuffles as its engine does, started if it was not. -/
theorem shuffle_exact (items : Array α) :
    ((∀ indices, indices ∈ indexLists 0 items.size ↔
        indices.length = items.size ∧ ∀ (i : Nat) (h : i < indices.length), indices[i] ≤ i) ∧
      #(indexLists 0 items.size) = items.size ! ∧
      ∀ indices ∈ indexLists 0 items.size, ∃ out places, exchangeAll items 0 indices = .ok out ∧
        exchangeAll (Array.range items.size) 0 indices = .ok places ∧ out.Perm items ∧
        places.Perm (Array.range items.size) ∧ out.map some = places.map fun i => items[i]?) ∧
    (∀ places : Array Nat, places.Perm (Array.range items.size) →
      ∃! indices, indices ∈ indexLists 0 items.size ∧
        exchangeAll (Array.range items.size) 0 indices = .ok places) ∧
    (∀ (σ : Type) [Engine σ] (s : σ),
      (items.size ≤ 1 → (shuffle items).runFrom s = (.ok items, s)) ∧
      ∀ [Tireless σ], 1 < items.size → ∃ indices ∈ indexLists 0 items.size, ∃ s' out,
        (shuffleIndices items.size).runFrom s = (.ok indices, s') ∧
          exchangeAll items 0 indices = .ok out ∧ (shuffle items).runFrom s = (.ok out, s')) ∧
    ∀ (ε : Type) [Seedable ε] (dealer : Dealer ε),
      let ran := (shuffle items).runFrom dealer.started
      (Dealer.shuffle items).runFrom dealer = (ran.1, { dealer with engine := some ran.2 }) := by
  refine ⟨⟨fun indices => ?_, ?_, fun indices h => ?_⟩, fun places => existsUnique_exchangeAll,
    fun σ _ s => ⟨fun h => ?_, fun h => ?_⟩, fun ε _ dealer => ?_⟩
  · simpa only [Nat.zero_add] using mem_indexLists (i := 0)
  · rw [card_indexLists, Nat.zero_add, Nat.one_ascFactorial]
  · obtain ⟨out, hout, hperm⟩ := exchangeAll_of_mem h (Nat.le_of_eq (Nat.zero_add items.size))
    obtain ⟨places, hplaces, harranged⟩ :=
      @exchangeAll_of_mem _ (Array.range items.size) _ _ _ h (by simp)
    have hmap := map_some_exchangeAll items indices
    rw [hout, hplaces] at hmap
    exact ⟨out, places, hout, hplaces, hperm, harranged, Except.ok.inj hmap⟩
  · have hnone : (shuffleIndices items.size : Draw σ (List Nat)) = pure [] := by
      rw [shuffleIndices, if_pos h]
    exact runFrom_shuffle items s (by rw [hnone]; rfl) rfl
  · obtain ⟨indices, s', hdrawn, hindices⟩ := always_shuffleIndices h s
    obtain ⟨out, hout, -⟩ := exchangeAll_of_mem hindices (Nat.le_of_eq (Nat.zero_add items.size))
    exact ⟨indices, hindices, s', out, hdrawn, hout, runFrom_shuffle items s hdrawn hout⟩
  · rw [Dealer.shuffle, Dealer.onEngine, DrawT.runFrom_onPart]
    rfl

/-- The first letter is alone at its draw, and the second and the third both change places with what
is in front: so the third letter ends in front, and the second at the end.  The same three letters
are rearranged by the stream cipher. -/
theorem shuffle_exact_letters :
    let letters : Array Char := #['a', 'b', 'c']
    exchangeAll letters 0 [0, 0, 0] = .ok #['c', 'a', 'b'] ∧
      (∃! indices, indices ∈ indexLists 0 3 ∧
        exchangeAll (Array.range 3) 0 indices = .ok #[2, 0, 1]) ∧
      (shuffle #['a']).runFrom (⟨[], 0⟩ : Words) = (.ok #['a'], ⟨[], 0⟩) ∧
      ∃ indices ∈ indexLists 0 3, ∃ s' out,
        (shuffleIndices 3).runFrom (Seedable.ofSeed 7 : ChaCha) = (.ok indices, s') ∧
          (shuffle letters).runFrom (Seedable.ofSeed 7 : ChaCha) = (.ok out, s') := by
  intro letters
  obtain ⟨-, hplaces, hdrawn, -⟩ := shuffle_exact letters
  obtain ⟨-, -, hone, -⟩ := shuffle_exact #['a']
  obtain ⟨-, hcipher⟩ := hdrawn ChaCha (Seedable.ofSeed 7)
  obtain ⟨indices, hindices, s', out, hran, -, hshuffled⟩ := hcipher (by decide)
  have harranged : (#[2, 0, 1] : Array Nat).Perm (Array.range 3) := .of_toList_perm (by decide)
  exact ⟨rfl, hplaces _ harranged, (hone Words ⟨[], 0⟩).1 (by decide), indices, hindices, s', out,
    hran, hshuffled⟩

end Sortition

import Mathlib
import Sortition.Engine.ChaCha
import Sortition.Proofs.Engines
import Sortition.Proofs.Magnitudes
import Sortition.Proofs.Picking

/-!
# An engine picks by weight

The running totals of weights divide the interval from zero to the total, and the part of a weight
of zero is empty, so that no point falls into it.  This has to be seen of rounded totals, of which
only the order is known (`Sortition.Proofs.Magnitudes`), and it has to be seen that the point that
is drawn does lie in the interval.

* `pairwise_scanl`: the running totals never fall.
* `ofWeights_eq_ok_iff`, `ofWeights_weightsOrEqual`: which lists of weights are accepted, and which
  of those that a weight function gives.
* `indexOf_lt`, `exists_pos_indexOf`: an index is always the index of a weight, and below the total
  this weight is above zero.
* `pointOf_le_total`, `pointOf_lt_total`: the point that is drawn is at most the total, and below it
  if the total is a normal number.
* `pickWeighted_positive` says what this means for picks by a list and by a function, and
  `pickWeightedBy_returns_iff` says when a pick by a function returns.
-/

set_option autoImplicit false

namespace Sortition

variable {σ τ C α : Type}

namespace WeightTable

variable {s x c w p : Float} {ws weights : List Float} {table : WeightTable}

/-! ## The running totals -/

/-- The running totals are the sums from the left. -/
theorem thresholds_append_total (s : Float) (ws : List Float) :
    (accumulate s ws).thresholds ++ [(accumulate s ws).total] = ws.scanl (· + ·) s := by
  induction ws generalizing s with
  | nil => rfl
  | cons w ws ih => rw [accumulate, List.scanl_cons, ← ih]; rfl

theorem length_thresholds (s : Float) (ws : List Float) :
    (accumulate s ws).thresholds.length = ws.length := by
  induction ws generalizing s with
  | nil => rfl
  | cons w ws ih => rw [accumulate, List.length_cons, List.length_cons, ih]

theorem total_accumulate (s : Float) (ws : List Float) :
    (accumulate s ws).total = ws.foldl (· + ·) s := by
  induction ws generalizing s with
  | nil => rfl
  | cons w ws ih => exact ih (s + w)

/-- From a usable total on, adding usable weights gives usable totals, none of them below it. -/
theorem usable_of_mem_scanl (hs : usable s) (hws : ∀ w ∈ ws, usable w) :
    ∀ x ∈ ws.scanl (· + ·) s, usable x ∧ magnitude s ≤ magnitude x := by
  induction ws generalizing s with
  | nil =>
    intro x hx
    obtain rfl := List.mem_singleton.1 hx
    exact ⟨hs, le_rfl⟩
  | cons w ws ih =>
    obtain ⟨hw, hws⟩ := List.forall_mem_cons.1 hws
    intro x hx
    rw [List.scanl_cons] at hx
    rcases List.mem_cons.1 hx with rfl | hx
    · exact ⟨hs, le_rfl⟩
    · obtain ⟨hux, hle⟩ := ih (usable_add hs hw) hws x hx
      exact ⟨hux, (magnitude_le_add hs hw).trans hle⟩

/-- **The running totals never fall.** -/
theorem pairwise_scanl (hs : usable s) (hws : ∀ w ∈ ws, usable w) :
    (ws.scanl (· + ·) s).Pairwise (· ≤ ·) := by
  induction ws generalizing s with
  | nil => exact List.pairwise_singleton _ _
  | cons w ws ih =>
    obtain ⟨hw, hws'⟩ := List.forall_mem_cons.1 hws
    have hsw := usable_add hs hw
    rw [List.scanl_cons]
    refine List.pairwise_cons.2 ⟨fun x hx => ?_, ih hsw hws'⟩
    obtain ⟨hux, hle⟩ := usable_of_mem_scanl hsw hws' x hx
    exact (le_iff hs hux).2 ((magnitude_le_add hs hw).trans hle)

theorem usable_total (hs : usable s) (hws : ∀ w ∈ ws, usable w) :
    usable (accumulate s ws).total := by
  have hmem : (accumulate s ws).total ∈ ws.scanl (· + ·) s := by
    rw [← thresholds_append_total]
    exact List.mem_append_right _ (List.mem_singleton_self _)
  exact (usable_of_mem_scanl hs hws _ hmem).1

/-- The total depends on the magnitude of what it starts from alone. -/
theorem magnitude_total_congr (hs : usable s) (hx : usable x) (h : magnitude s = magnitude x)
    (hws : ∀ w ∈ ws, usable w) :
    magnitude (accumulate s ws).total = magnitude (accumulate x ws).total := by
  induction ws generalizing s x with
  | nil => exact h
  | cons w ws ih =>
    obtain ⟨hw, hws⟩ := List.forall_mem_cons.1 hws
    exact ih (usable_add hs hw) (usable_add hx hw) (magnitude_add_congr hs hx hw h) hws

/-! ## Which lists of weights are accepted -/

/-- A list of usable weights is refused only for its total. -/
theorem ofWeights_cons (hweights : ∀ x ∈ w :: ws, usable x) :
    ofWeights (w :: ws) =
      if magnitude (accumulate w ws).total = 0 then .error (.badWeights .allZero)
      else if (accumulate w ws).total.isInf then .error .infiniteTotal
      else .ok (accumulate w ws) := by
  obtain ⟨hw, hws⟩ := List.forall_mem_cons.1 hweights
  have hall : (w :: ws).all usable = true := List.all_eq_true.2 hweights
  simp only [ofWeights, hall, Bool.not_true, Bool.false_eq_true, if_false,
    beq_zero_iff (usable_total hw hws)]

theorem usable_of_ofWeights (h : ofWeights weights = .ok table) : ∀ x ∈ weights, usable x := by
  cases weights with
  | nil => cases h
  | cons w ws =>
    by_contra hbad
    rw [← List.all_eq_true, Bool.not_eq_true] at hbad
    rw [ofWeights, hbad] at h
    cases h

/-- **What is accepted**: usable weights, of which the total is above zero and finite. -/
theorem ofWeights_eq_ok_iff : ofWeights weights = .ok table ↔
    ∃ w ws, weights = w :: ws ∧ (∀ x ∈ weights, usable x) ∧ table = accumulate w ws ∧
      magnitude table.total ≠ 0 ∧ table.total.isInf = false := by
  constructor
  · intro h
    have hweights := usable_of_ofWeights h
    cases weights with
    | nil => cases h
    | cons w ws =>
      rw [ofWeights_cons hweights] at h
      split at h
      case isTrue => cases h
      case isFalse hzero =>
        split at h
        case isTrue => cases h
        case isFalse hinf =>
          cases h
          exact ⟨w, ws, rfl, hweights, rfl, hzero, Bool.not_eq_true _ ▸ hinf⟩
  · rintro ⟨w, ws, rfl, hweights, rfl, hzero, hinf⟩
    rw [ofWeights_cons hweights, if_neg hzero, hinf]
    rfl

theorem usable_total_of_ok (h : ofWeights weights = .ok table) :
    usable table.total ∧ table.total.isInf = false := by
  obtain ⟨w, ws, rfl, hweights, rfl, -, hfinite⟩ := ofWeights_eq_ok_iff.1 h
  obtain ⟨hw, hws⟩ := List.forall_mem_cons.1 hweights
  exact ⟨usable_total hw hws, hfinite⟩

/-! ## The index of a point -/

/-- The index is never behind the last weight. -/
theorem indexOf_lt (h : ofWeights weights = .ok table) (p : Float) :
    table.indexOf p < weights.length := by
  obtain ⟨w, ws, rfl, -, rfl, -⟩ := ofWeights_eq_ok_iff.1 h
  rw [indexOf, List.length_cons, ← length_thresholds w ws]
  exact Nat.lt_succ_of_le (List.takeWhile_sublist _).length_le

/-- What leads a list that never falls is all that does not lie beyond a bound. -/
theorem length_takeWhile_point {l : List Float}
    (h : l.Pairwise fun x y => y ≤ p → x ≤ p) :
    (l.takeWhile (· ≤ p)).length = l.countP (· ≤ p) := by
  induction l with
  | nil => rfl
  | cons x l ih =>
    obtain ⟨hx, hl⟩ := List.pairwise_cons.1 h
    by_cases hxp : x ≤ p
    · simp [hxp, ih hl]
    · have hnone : l.countP (· ≤ p) = 0 :=
        List.countP_eq_zero.2 fun y hy hyp => hxp (hx y hy (of_decide_eq_true hyp))
      simp [hxp, hnone]

/-- **The index of a point below the total has a weight above zero.**  The induction is on the
weights that are still to come.  It carries along the total `s` of those before and the weight `c`
by which `s` was reached: a point that lies below `s`, but not below the totals before it, is
possible only if `c` is above zero. -/
theorem exists_pos_indexOf_accumulate (hc : usable c) (hs : usable s) (hp : usable p)
    (hws : ∀ w ∈ ws, usable w) (hreach : p < s → 0.0 < c) (hlt : p < (accumulate s ws).total) :
    ∃ v, (c :: ws)[(accumulate s ws).indexOf p]? = some v ∧ 0.0 < v := by
  induction ws generalizing s c with
  | nil => exact ⟨c, rfl, hreach hlt⟩
  | cons w ws ih =>
    obtain ⟨hw, hws⟩ := List.forall_mem_cons.1 hws
    have hsw := usable_add hs hw
    by_cases hsp : s ≤ p
    · have hnext : p < s + w → 0.0 < w := by
        intro hpsw
        refine (pos_iff hw).2 ((magnitude_nonneg hw).lt_of_ne' fun hzero => ?_)
        rw [lt_iff hp hsw, magnitude_add_zero hs hw hzero] at hpsw
        exact hpsw.not_ge ((le_iff hs hp).1 hsp)
      obtain ⟨v, hv, hpos⟩ := ih hw hsw hws hnext hlt
      refine ⟨v, ?_, hpos⟩
      rw [← hv]
      simp [indexOf, accumulate, hsp]
    · have hps : p < s := by
        rw [lt_iff hp hs]
        rw [le_iff hs hp] at hsp
        exact lt_of_not_ge hsp
      refine ⟨c, ?_, hreach hps⟩
      simp [indexOf, accumulate, hsp]

theorem exists_pos_indexOf (h : ofWeights weights = .ok table) (hp : usable p)
    (hlt : p < table.total) : ∃ v, weights[table.indexOf p]? = some v ∧ 0.0 < v := by
  obtain ⟨w, ws, rfl, hweights, rfl, -⟩ := ofWeights_eq_ok_iff.1 h
  obtain ⟨hw, hws⟩ := List.forall_mem_cons.1 hweights
  have hreach : p < w → 0.0 < w := by
    intro hpw
    rw [pos_iff hw]
    exact (magnitude_nonneg hp).trans_lt ((lt_iff hp hw).1 hpw)
  exact exists_pos_indexOf_accumulate hw hw hp hws hreach hlt

/-- The index counts the totals, but for the last, that do not lie beyond the point. -/
theorem indexOf_eq_countP (h : ofWeights weights = .ok table) (hp : usable p) :
    table.indexOf p = table.thresholds.countP (· ≤ p) := by
  obtain ⟨w, ws, rfl, hweights, rfl, -⟩ := ofWeights_eq_ok_iff.1 h
  obtain ⟨hw, hws⟩ := List.forall_mem_cons.1 hweights
  have hpairwise := pairwise_scanl hw hws
  rw [← thresholds_append_total, List.pairwise_append] at hpairwise
  refine length_takeWhile_point (hpairwise.1.imp_of_mem fun {x y} hx hy hle hyp => ?_)
  have husable : ∀ z ∈ (accumulate w ws).thresholds, usable z := fun z hz =>
    (usable_of_mem_scanl hw hws z
      (thresholds_append_total w ws ▸ List.mem_append_left _ hz)).1
  have hux := husable x hx
  have huy := husable y hy
  rw [le_iff hux huy] at hle
  rw [le_iff huy hp] at hyp
  exact (le_iff hux hp).2 (hle.trans hyp)

/-! ## The point that is drawn -/

/-- The point of the interval that a word stands for. -/
def pointOf (table : WeightTable) (word : UInt64) : Float := unitOfWord word * table.total + 0.0

section

variable (htotal : usable table.total) (hfinite : table.total.isInf = false) (word : UInt64)

include htotal hfinite

theorem usable_unit_mul : usable (unitOfWord word * table.total) :=
  usable_mul (usable_unit word) htotal (isInf_unit word) hfinite

theorem usable_pointOf : usable (table.pointOf word) :=
  usable_add (usable_unit_mul htotal hfinite word) usable_zero

/-- No magnitude of the grid separates the point from the exact product. -/
theorem rounds_pointOf : Rounds (magnitude (unitOfWord word) * magnitude table.total)
    (magnitude (table.pointOf word)) := by
  rw [pointOf, magnitude_add_zero (usable_unit_mul htotal hfinite word) usable_zero magnitude_zero]
  exact rounds_mul (usable_unit word) htotal (isInf_unit word) hfinite

theorem pointOf_le_total : table.pointOf word ≤ table.total := by
  rw [le_iff (usable_pointOf htotal hfinite word) htotal]
  refine (rounds_pointOf htotal hfinite word).rounded_le _ (onGrid_magnitude htotal) ?_
  refine mul_le_of_le_one_left (magnitude_nonneg htotal) ((magnitude_unit_le word).trans ?_)
  exact sub_le_self _ (by positivity)

/-- **The point lies below the total, if that is a normal number.**  The number before the total is
then smaller by one unit of the last place, and the exact product is not above it. -/
theorem pointOf_lt_total (hnormal : smallestNormal ≤ table.total) :
    table.pointOf word < table.total := by
  obtain ⟨m, e, hc, hfull, hmagnitude⟩ := exists_full htotal hfinite hnormal
  have hfull' : ((2 ^ 52 : ℕ) : ℚ) ≤ m := by exact_mod_cast hfull
  have hpos : (0 : ℚ) < 2 ^ e := by positivity
  have hbefore : OnGrid ((m - 1 : ℕ) * 2 ^ e) :=
    ⟨m - 1, e, (Nat.sub_le m 1).trans_lt hc.lt_pow, hc.le_exponent, rfl⟩
  have hpred : ((m - 1 : ℕ) : ℚ) = m - 1 := by
    rw [Nat.cast_sub (by omega), Nat.cast_one]
  have hplace : (1 : ℚ) ≤ 2 ^ (-52 : ℤ) * m := by
    calc (1 : ℚ) = 2 ^ (-52 : ℤ) * (2 ^ 52 : ℕ) := by norm_num
      _ ≤ 2 ^ (-52 : ℤ) * m := by gcongr
  have hproduct : magnitude (unitOfWord word) * m ≤ m - 1 := by
    calc magnitude (unitOfWord word) * m ≤ (1 - 2 ^ (-52 : ℤ)) * m := by
          gcongr
          exact magnitude_unit_le word
      _ = m - 2 ^ (-52 : ℤ) * m := by ring
      _ ≤ m - 1 := by gcongr
  rw [lt_iff (usable_pointOf htotal hfinite word) htotal]
  calc magnitude (table.pointOf word) ≤ (m - 1 : ℕ) * 2 ^ e := by
        refine (rounds_pointOf htotal hfinite word).rounded_le _ hbefore ?_
        rw [hmagnitude, ← mul_assoc, hpred]
        gcongr
    _ < m * 2 ^ e := by
        rw [hpred]
        gcongr
        exact sub_one_lt _
    _ = magnitude table.total := hmagnitude.symm

end

/-! ## Sums of the weights that a function gives -/

theorem usable_sumWeights (hweights : ∀ x ∈ w :: ws, usable x) : usable (sumWeights (w :: ws)) := by
  obtain ⟨hw, hws⟩ := List.forall_mem_cons.1 hweights
  rw [sumWeights, List.foldl_cons, ← total_accumulate]
  exact usable_total (usable_add usable_zero hw) hws

/-- The sum starts from zero and the total from the first weight, which makes no difference. -/
theorem magnitude_sumWeights (hweights : ∀ x ∈ w :: ws, usable x) :
    magnitude (sumWeights (w :: ws)) = magnitude (accumulate w ws).total := by
  obtain ⟨hw, hws⟩ := List.forall_mem_cons.1 hweights
  rw [sumWeights, List.foldl_cons, ← total_accumulate]
  exact magnitude_total_congr (usable_add usable_zero hw) hw
    (magnitude_zero_add usable_zero hw magnitude_zero) hws

theorem two_pow_lt_infinite : (2 : ℚ) ^ 53 < 2 ^ 1024 :=
  pow_lt_pow_right₀ (by norm_num) (by norm_num)

theorem unpack_two_pow : (Float.ofBits 0x4340000000000000).toModel.unpack =
    .finite .positive (2 ^ 52) 1 (by norm_num) := rfl

/-- There is a number in which one more is lost. -/
theorem exists_add_one_eq_self :
    ∃ many : Float, usable many ∧ magnitude many = (2 ^ 53 : ℕ) ∧ many + 1.0 = many := by
  refine ⟨Float.ofBits 0x4340000000000000, ?_, ?_, by decide +kernel⟩
  · rw [usable_iff, unpack_two_pow]
    exact .finite _ ⟨by norm_num, by norm_num, .inl le_rfl⟩ (by norm_num)
  · rw [magnitude, unpack_two_pow, amountOf]
    norm_num

/-- Ones are counted exactly up to that number, where the count stops. -/
theorem exists_natCast_add_one (hs : usable s) {k : ℕ} (hpos : 0 < k) (hle : k ≤ 2 ^ 53)
    (h : magnitude s = k) : ∃ k' : ℕ, 0 < k' ∧ k' ≤ 2 ^ 53 ∧ magnitude (s + 1.0) = k' := by
  rcases hle.lt_or_eq with hlt | rfl
  · have hrounds := rounds_add hs usable_one
    rw [h, magnitude_one, ← Nat.cast_add_one] at hrounds
    have hfew : ((k + 1 : ℕ) : ℚ) ≤ 2 ^ 53 := by exact_mod_cast hlt
    exact ⟨k + 1, k.succ_pos, hlt,
      hrounds.eq_of_onGrid (onGrid_natCast hlt) (hfew.trans two_pow_lt_infinite.le)⟩
  · obtain ⟨many, hmany, hmagnitude, hlost⟩ := exists_add_one_eq_self
    refine ⟨2 ^ 53, hpos, le_rfl, ?_⟩
    rw [magnitude_add_congr hs hmany usable_one (h.trans hmagnitude.symm), hlost, hmagnitude]

theorem exists_natCast_ones (hs : usable s) {k : ℕ} (hpos : 0 < k) (hle : k ≤ 2 ^ 53)
    (h : magnitude s = k) (n : ℕ) : ∃ k' : ℕ, 0 < k' ∧ k' ≤ 2 ^ 53 ∧
      magnitude (accumulate s (List.replicate n 1.0)).total = k' := by
  induction n generalizing s k with
  | zero => exact ⟨k, hpos, hle, h⟩
  | succ n ih =>
    obtain ⟨k', hpos', hle', h'⟩ := exists_natCast_add_one hs hpos hle h
    exact ih (usable_add hs usable_one) hpos' hle' h'

/-- **Weights of one are always accepted**, however many they are. -/
theorem exists_ofWeights_ones (n : ℕ) :
    ∃ table, ofWeights (List.replicate (n + 1) 1.0) = .ok table := by
  have hones : ∀ x ∈ List.replicate (n + 1) (1.0 : Float), usable x := by
    intro x hx
    rw [List.eq_of_mem_replicate hx]
    exact usable_one
  obtain ⟨-, hrest⟩ := List.forall_mem_cons.1 (List.replicate_succ ▸ hones)
  obtain ⟨k, hpos, hle, hk⟩ :=
    exists_natCast_ones usable_one one_pos (by norm_num) (by rw [magnitude_one, Nat.cast_one]) n
  have hfew : (k : ℚ) ≤ 2 ^ 53 := by exact_mod_cast hle
  refine ⟨_, ofWeights_eq_ok_iff.2 ⟨1.0, _, List.replicate_succ, hones, rfl, ?_, ?_⟩⟩
  · rw [hk]
    exact_mod_cast hpos.ne'
  · rw [← Bool.not_eq_true, isInf_iff (usable_total usable_one hrest), hk]
    exact (hfew.trans_lt two_pow_lt_infinite).ne

theorem weightsOrEqual_of_pos (hweights : ∀ x ∈ weights, usable x)
    (hpos : 0.0 < sumWeights weights) : weightsOrEqual weights = weights := by
  cases weights with
  | nil => rfl
  | cons w ws =>
    have hsum := usable_sumWeights hweights
    refine if_neg fun hle => ?_
    rw [pos_iff hsum, (le_zero_iff hsum).1 hle] at hpos
    exact lt_irrefl 0 hpos

/-- **Usable weights are refused only if they add up to infinity**, once weights that add up to
nothing have been replaced by equal ones. -/
theorem ofWeights_weightsOrEqual (hsome : weights ≠ []) (hweights : ∀ x ∈ weights, usable x) :
    ((sumWeights weights).isInf = true →
      ofWeights (weightsOrEqual weights) = .error .infiniteTotal) ∧
    ((sumWeights weights).isInf = false →
      ∃ table, ofWeights (weightsOrEqual weights) = .ok table) := by
  obtain ⟨w, ws, rfl⟩ := List.exists_cons_of_ne_nil hsome
  obtain ⟨hw, hws⟩ := List.forall_mem_cons.1 hweights
  have hsum := usable_sumWeights hweights
  have hmagnitude := magnitude_sumWeights hweights
  have hinf : (sumWeights (w :: ws)).isInf = true ↔ (accumulate w ws).total.isInf = true := by
    rw [isInf_iff hsum, isInf_iff (usable_total hw hws), hmagnitude]
  by_cases hzero : sumWeights (w :: ws) ≤ 0.0
  · have hfinite : (sumWeights (w :: ws)).isInf = false := by
      rw [← Bool.not_eq_true, isInf_iff hsum, (le_zero_iff hsum).1 hzero]
      exact (by positivity : (0 : ℚ) < 2 ^ 1024).ne
    rw [weightsOrEqual, if_pos hzero]
    exact ⟨fun h => absurd h (by simp [hfinite]), fun _ => exists_ofWeights_ones ws.length⟩
  · have hpos : magnitude (accumulate w ws).total ≠ 0 := by
      rwa [← hmagnitude, Ne, ← le_zero_iff hsum]
    rw [weightsOrEqual, if_neg hzero, ofWeights_cons hweights, if_neg hpos]
    refine ⟨fun h => if_pos (hinf.1 h), fun h => ⟨_, if_neg fun htotal => ?_⟩⟩
    exact Bool.false_ne_true (h.symm.trans (hinf.2 htotal))

end WeightTable

/-! ## Runs of an engine -/

theorem run_runFrom_pickWeightedBy [Source σ] [Sequence C α] (weigh : α → StateM τ Float) (c : C)
    (s : σ) (memory : τ) :
    let told := ((Sequence.toList c).mapM weigh).run memory
    ((pickWeightedBy weigh c).runFrom s).run memory =
      ((pickWeighted (weightsOrEqual told.1) c).runFrom s, told.2) := by
  rw [runFrom_pickWeightedBy, StateT.run_map]
  rfl

section

variable [Engine σ] {weights : List Float} {table : WeightTable} {s : σ}

theorem runFrom_weighted_of_ok (h : WeightTable.ofWeights weights = .ok table) {word : UInt64}
    {s' : σ} (hword : (Engine.nextU64 : Draw σ UInt64).runFrom s = (.ok word, s')) :
    (Source.weighted weights : Draw σ Nat).runFrom s =
      (.ok (table.indexOf (table.pointOf word)), s') := by
  change (Engine.weighted weights).runFrom s = _
  rw [Engine.weighted, h]
  exact DrawT.runFrom_bind_of_ok hword

theorem runFrom_weighted_of_error {fault : Fault}
    (h : WeightTable.ofWeights weights = .error fault) :
    (Source.weighted weights : Draw σ Nat).runFrom s = (.error fault, s) := by
  change (Engine.weighted weights).runFrom s = _
  rw [Engine.weighted, h]
  rfl

variable [Sequence C α] [LawfulSequence C α] {c : C}

theorem pickWeighted_eq (hsome : Sequence.toList c ≠ [])
    (hcount : weights.length = (Sequence.toList c).length) :
    (pickWeighted weights c : Draw σ α) = Source.weighted weights >>= elementAt .weighted c := by
  have hsize := LawfulSequence.size_eq c
  have hpos := List.length_pos_iff.2 hsome
  rw [pickWeighted, if_neg (by omega), if_neg (by omega)]

theorem runFrom_pickWeighted_of_error (hsome : Sequence.toList c ≠ [])
    (hcount : weights.length = (Sequence.toList c).length) {fault : Fault}
    (h : WeightTable.ofWeights weights = .error fault) :
    (pickWeighted weights c : Draw σ α).runFrom s = (.error fault, s) := by
  rw [pickWeighted_eq hsome hcount]
  exact DrawT.runFrom_bind_of_error _ (runFrom_weighted_of_error h)

/-- What it is to pick by accepted weights: the next word stands for a point, and the item at the
index of the point is picked.  Its weight is above zero if the point is below the total, and this it
is if the total is a normal number. -/
def PicksByWeight (weights : List Float) (items : List α) (s : σ)
    (ran : Except Fault α × σ) : Prop :=
  ∃ table word s' item weight, WeightTable.ofWeights weights = .ok table ∧
    (Engine.nextU64 : Draw σ UInt64).runFrom s = (.ok word, s') ∧
    let point := table.pointOf word
    let index := table.indexOf point
    items[index]? = some item ∧ weights[index]? = some weight ∧ ran = (.ok item, s') ∧
      (point < table.total → 0.0 < weight) ∧ (smallestNormal ≤ table.total → point < table.total)

/-- **Accepted weights pick an element**, as long as there are words. -/
theorem picksByWeight_of_ok [Tireless σ] (h : WeightTable.ofWeights weights = .ok table)
    (hcount : weights.length = (Sequence.toList c).length) (s : σ) :
    PicksByWeight weights (Sequence.toList c) s ((pickWeighted weights c).runFrom s) := by
  obtain ⟨word, s', hword, -⟩ := Tireless.nextU64 s
  obtain ⟨htotal, hfinite⟩ := WeightTable.usable_total_of_ok h
  have hindex := WeightTable.indexOf_lt h (table.pointOf word)
  have hindex' := hcount ▸ hindex
  have hsome : Sequence.toList c ≠ [] := List.ne_nil_of_length_pos (Nat.zero_lt_of_lt hindex')
  refine ⟨table, word, s', _, _, h, hword, List.getElem?_eq_getElem hindex',
    List.getElem?_eq_getElem hindex, ?_, fun hlt => ?_,
    fun hnormal => WeightTable.pointOf_lt_total htotal hfinite word hnormal⟩
  · rw [pickWeighted_eq hsome hcount,
      DrawT.runFrom_bind_of_ok (runFrom_weighted_of_ok h hword), runFrom_elementAt,
      itemOr_of_lt hindex']
  · obtain ⟨weight, hweight, hpos⟩ :=
      WeightTable.exists_pos_indexOf h (WeightTable.usable_pointOf htotal hfinite word) hlt
    rw [List.getElem?_eq_getElem hindex, Option.some.injEq] at hweight
    rwa [hweight]

variable (weigh : α → StateM τ Float) (s : σ) (memory : τ)

/-- **A weight function picks an element, unless the weights add up to infinity.** -/
theorem picksByWeight_weightsOrEqual [Tireless σ] (hsome : Sequence.toList c ≠ []) :
    let items := Sequence.toList c
    let told := (items.mapM weigh).run memory
    let ran := ((pickWeightedBy weigh c).runFrom s).run memory
    (∀ x ∈ told.1, WeightTable.usable x) →
      ((sumWeights told.1).isInf = true → ran.1 = (.error .infiniteTotal, s)) ∧
      ((sumWeights told.1).isInf = false →
        PicksByWeight (weightsOrEqual told.1) items s ran.1) := by
  intro items told ran hweights
  have hcount : told.1.length = items.length := length_run_mapM weigh items memory
  have hsome' : told.1 ≠ [] := List.ne_nil_of_length_pos (hcount ▸ List.length_pos_iff.2 hsome)
  have hcount' : (weightsOrEqual told.1).length = items.length :=
    (length_weightsOrEqual told.1).trans hcount
  have hran : ran.1 = (pickWeighted (weightsOrEqual told.1) c).runFrom s :=
    congrArg Prod.fst (run_runFrom_pickWeightedBy weigh c s memory)
  obtain ⟨hinf, hfinite⟩ := WeightTable.ofWeights_weightsOrEqual hsome' hweights
  refine ⟨fun h => ?_, fun h => ?_⟩
  · exact hran.trans (runFrom_pickWeighted_of_error hsome hcount' (hinf h))
  · obtain ⟨table, htable⟩ := hfinite h
    rw [hran]
    exact picksByWeight_of_ok htable hcount' s

/-- **Weights with a sum above zero are used as they are.** -/
theorem picksByWeight_of_pos [Tireless σ] :
    let items := Sequence.toList c
    let told := (items.mapM weigh).run memory
    let ran := ((pickWeightedBy weigh c).runFrom s).run memory
    (∀ x ∈ told.1, WeightTable.usable x) → 0.0 < sumWeights told.1 →
      ((sumWeights told.1).isInf = true → ran.1 = (.error .infiniteTotal, s)) ∧
      ((sumWeights told.1).isInf = false → PicksByWeight told.1 items s ran.1) := by
  intro items told ran hweights hpos
  have hsome : items ≠ [] := by
    intro hnone
    have hcount : told.1.length = items.length := length_run_mapM weigh items memory
    rw [List.eq_nil_of_length_eq_zero (hcount.trans (by rw [hnone]; rfl))] at hpos
    exact absurd hpos (by decide +kernel)
  have hkept : weightsOrEqual told.1 = told.1 := WeightTable.weightsOrEqual_of_pos hweights hpos
  have hpicks := picksByWeight_weightsOrEqual weigh s memory hsome hweights
  rwa [show weightsOrEqual ((items.mapM weigh).run memory).1 = told.1 from hkept] at hpicks

end

/-! ## The main statements -/

/-- **No element of weight zero is picked.**  An engine that never runs out of words picks an
element by any list of accepted weights, one for each element, and in no case is the index past the
end.  The weight of the element is above zero, provided that the point that is drawn lies below the
total of the weights.  It does if the total is a normal number; but where a total is so small that
the points cannot be told apart any more, the last of them may be rounded up to the total itself.

The same holds of weights that a function gives, if none of them is negative and their sum from the
left is above zero.  A sum that is infinite stops the pick before a word is drawn.

All of this goes by the following, of whatever accepted weights and of whatever word.

* The table holds the sums of the weights from the left.
* They never fall, and a weight of zero, with either sign, does not change them.
* The point that is drawn is not below zero and not above the total.
* The index is the number of sums, but for the last, that do not lie beyond the point. -/
theorem pickWeighted_positive [Engine σ] [Tireless σ] [Sequence C α] [LawfulSequence C α]
    (weights : List Float) (weigh : α → StateM τ Float) (c : C) (s : σ) (memory : τ) :
    let items := Sequence.toList c
    let told := (items.mapM weigh).run memory
    let sum := told.1.foldl (· + ·) 0.0
    let ran := ((pickWeightedBy weigh c).runFrom s).run memory
    (∀ table, WeightTable.ofWeights weights = .ok table → weights.length = items.length →
      PicksByWeight weights items s ((pickWeighted weights c).runFrom s)) ∧
    ((∀ x ∈ told.1, 0.0 ≤ x) → 0.0 < sum →
      (sum.isInf = true → ran.1 = (.error .infiniteTotal, s)) ∧
      (sum.isInf = false → PicksByWeight told.1 items s ran.1)) ∧
    ∀ table word, WeightTable.ofWeights weights = .ok table →
      let sums := table.thresholds ++ [table.total]
      let point := table.pointOf word
      (∃ w ws, weights = w :: ws ∧ sums = ws.scanl (· + ·) w) ∧
      (sums.Pairwise (· ≤ ·) ∧ ∀ x ∈ sums, ∀ y, 0.0 ≤ y → y ≤ 0.0 → (x + y == x) = true) ∧
      (0.0 ≤ point ∧ point ≤ table.total) ∧
      table.indexOf point = table.thresholds.countP (· ≤ point) := by
  intro items told sum ran
  refine ⟨fun table htable hcount => picksByWeight_of_ok htable hcount s, fun hweights =>
    picksByWeight_of_pos weigh s memory fun x hx => decide_eq_true (hweights x hx),
    fun table word htable => ?_⟩
  obtain ⟨htotal, hfinite⟩ := WeightTable.usable_total_of_ok htable
  have hpoint := WeightTable.usable_pointOf htotal hfinite word
  obtain ⟨w, ws, rfl, hweights, rfl, -⟩ := WeightTable.ofWeights_eq_ok_iff.1 htable
  obtain ⟨hw, hws⟩ := List.forall_mem_cons.1 hweights
  have hsums := WeightTable.thresholds_append_total w ws
  refine ⟨⟨w, ws, rfl, hsums⟩, ⟨?_, fun x hx y hy hle => ?_⟩,
    ⟨of_decide_eq_true hpoint, WeightTable.pointOf_le_total htotal hfinite word⟩,
    WeightTable.indexOf_eq_countP htable hpoint⟩
  · rw [hsums]
    exact WeightTable.pairwise_scanl hw hws
  · have hux := (WeightTable.usable_of_mem_scanl hw hws x (hsums ▸ hx)).1
    exact WeightTable.add_beq_self hux (decide_eq_true hy) hle

/-- Two letters of three have no weight, the first and the last, and the other one is picked, by a
list of weights and by a function.  The lowest word stands for the point zero; the first sum, which
is zero, does not lie beyond it, and so the index is one. -/
theorem pickWeighted_positive_letters :
    let letters : Deque Char := ⟨#['b', 'a'], #['c']⟩
    let weigh : Char → StateM Nat Float := fun _ asked =>
      (if asked = 1 then 2.0 else 0.0, asked + 1)
    let engine : SplitMix := Seedable.ofSeed 7
    (∃ s', (pickWeighted [0.0, 2.0, 0.0] letters).runFrom engine = (.ok 'b', s')) ∧
      (∃ s', (((pickWeightedBy weigh letters).runFrom engine).run 0).1 = (.ok 'b', s')) ∧
      WeightTable.indexOf ⟨[0.0, 2.0], 2.0⟩ (WeightTable.pointOf ⟨[0.0, 2.0], 2.0⟩ 0) = 1 := by
  intro letters weigh engine
  obtain ⟨hlist, hfunction, hpoint⟩ := pickWeighted_positive [0.0, 2.0, 0.0] weigh letters engine 0
  have htable : WeightTable.ofWeights [0.0, 2.0, 0.0] = .ok ⟨[0.0, 2.0], 2.0⟩ := rfl
  have htold : (((Sequence.toList letters).mapM weigh).run 0).1 = [0.0, 2.0, 0.0] := rfl
  have middle : ∀ ran : Except Fault Char × SplitMix,
      PicksByWeight [0.0, 2.0, 0.0] ['a', 'b', 'c'] engine ran → ∃ s', ran = (.ok 'b', s') := by
    rintro ran ⟨table, word, s', item, weight, haccepted, -, hitem, hweight, rfl, hpos, hbelow⟩
    obtain rfl := Except.ok.inj (htable.symm.trans haccepted)
    have hweight0 : 0.0 < weight := hpos (hbelow (by decide +kernel))
    generalize WeightTable.indexOf _ _ = index at hitem hweight
    rcases index with _ | _ | _ | index
    · obtain rfl := Option.some.inj hweight
      exact absurd hweight0 (by decide +kernel)
    · obtain rfl := Option.some.inj hitem
      exact ⟨s', rfl⟩
    · obtain rfl := Option.some.inj hweight
      exact absurd hweight0 (by decide +kernel)
    · cases hitem
  obtain ⟨-, hpicks⟩ := hfunction (by rw [htold]; decide +kernel) (by rw [htold]; decide +kernel)
  obtain ⟨-, -, -, hcount⟩ := hpoint _ 0 htable
  refine ⟨middle _ (hlist _ htable rfl), middle _ ?_, hcount.trans (by decide +kernel)⟩
  exact htold ▸ hpicks (by rw [htold]; decide +kernel)

/-- With the smallest total there is, every point is zero or the total itself, and no sum lies
beyond that: the last of four weights is picked, and it is zero. -/
example :
    let table := WeightTable.accumulate (Float.ofBits 1) [0.0, 0.0, 0.0]
    table.pointOf 0xffffffffffffffff = table.total ∧
      table.indexOf (table.pointOf 0xffffffffffffffff) = 3 := by
  decide +kernel

/-- **A weight function fails only where its weights overflow.**  It is asked about every element of
a sequence that is not empty, and none of the weights that it gives is negative or undefined.  Then
an engine that never runs out of words picks an element of the sequence, also if all the weights are
zero, unless the sum of the weights from the left is infinite.  If it is infinite, the pick stops,
and the engine is as it was; each of the weights may well be finite.  What the function remembers is
in both cases what it remembers after the last element. -/
theorem pickWeightedBy_returns_iff [Engine σ] [Tireless σ] [Sequence C α] [LawfulSequence C α]
    (weigh : α → StateM τ Float) (c : C) (s : σ) (memory : τ) :
    let items := Sequence.toList c
    let told := (items.mapM weigh).run memory
    let sum := told.1.foldl (· + ·) 0.0
    let ran := ((pickWeightedBy weigh c).runFrom s).run memory
    items ≠ [] → (∀ x ∈ told.1, 0.0 ≤ x) →
      ran.2 = told.2 ∧
      ((∃ item ∈ items, ran.1.1 = .ok item) ↔ sum.isInf = false) ∧
      (sum.isInf = true → ran.1 = (.error .infiniteTotal, s)) := by
  intro items told sum ran hsome hweights
  have husable : ∀ x ∈ told.1, WeightTable.usable x := fun x hx => decide_eq_true (hweights x hx)
  obtain ⟨hinf, hfinite⟩ := picksByWeight_weightsOrEqual weigh s memory hsome husable
  have hmemory : ran.2 = told.2 := congrArg Prod.snd (run_runFrom_pickWeightedBy weigh c s memory)
  refine ⟨hmemory, ⟨?_, fun h => ?_⟩, hinf⟩
  · rintro ⟨item, -, hitem⟩
    by_contra h
    have hran : ran.1 = (.error .infiniteTotal, s) := hinf (Bool.eq_true_of_not_eq_false h)
    rw [hran] at hitem
    cases hitem
  · obtain ⟨table, word, s', item, weight, -, -, hitem, -, hran, -⟩ := hfinite h
    exact ⟨item, List.mem_of_getElem? hitem, congrArg Prod.fst hran⟩

/-- One of three letters is picked, by weights that are finite and above zero, and without any
weight just as well. -/
theorem pickWeightedBy_returns_iff_letters :
    let letters : Deque Char := ⟨#['b', 'a'], #['c']⟩
    let inTurn (weights : List Float) : Char → StateM Nat Float := fun _ asked =>
      (weights.getD asked 0.0, asked + 1)
    let ran (weights : List Float) :=
      ((pickWeightedBy (inTurn weights) letters).runFrom (Seedable.ofSeed 7 : ChaCha)).run 0
    ((ran [0.5, 2.0, 0.25]).2 = 3 ∧
        ∃ item ∈ ['a', 'b', 'c'], (ran [0.5, 2.0, 0.25]).1.1 = .ok item) ∧
      ∃ item ∈ ['a', 'b', 'c'], (ran [0.0, 0.0, 0.0]).1.1 = .ok item := by
  intro letters inTurn ran
  have htold : ((Sequence.toList letters).mapM (inTurn [0.5, 2.0, 0.25])).run 0 =
      ([0.5, 2.0, 0.25], 3) := rfl
  have hnothing : ((Sequence.toList letters).mapM (inTurn [0.0, 0.0, 0.0])).run 0 =
      ([0.0, 0.0, 0.0], 3) := rfl
  obtain ⟨hmemory, hreturns, -⟩ := pickWeightedBy_returns_iff (inTurn [0.5, 2.0, 0.25]) letters
    (Seedable.ofSeed 7 : ChaCha) 0 (by decide) (by rw [htold]; decide +kernel)
  obtain ⟨-, hreturns', -⟩ := pickWeightedBy_returns_iff (inTurn [0.0, 0.0, 0.0]) letters
    (Seedable.ofSeed 7 : ChaCha) 0 (by decide) (by rw [hnothing]; decide +kernel)
  exact ⟨⟨hmemory, hreturns.2 (by rw [htold]; decide +kernel)⟩,
    hreturns'.2 (by rw [hnothing]; decide +kernel)⟩

/-- Two weights that are finite may add up to infinity, and then nothing is picked. -/
theorem pickWeightedBy_overflows :
    let largest : Float := Float.ofBits 0x7fefffffffffffff
    let weigh : Nat → StateM Unit Float := fun _ => pure largest
    let engine : SplitMix := Seedable.ofSeed 1
    largest.isFinite = true ∧ 0.0 ≤ largest ∧
      ((pickWeightedBy weigh [5, 5]).runFrom engine).run () =
        ((.error .infiniteTotal, engine), ()) := by
  exact ⟨by decide +kernel, by decide +kernel, rfl⟩

end Sortition

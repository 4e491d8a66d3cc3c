import Sortition.Container.Deque
import Sortition.Pick
import Sortition.Proofs.Filtering

/-!
# What a pick asks, requests, and comes to

Every pick makes one request at most, and what it comes to then is a choice by the number that it is
answered.  A number behind the last element is a fault, which says which number it was.
`runFrom_bind_request` is that for any choice, and the picks differ in their request, in what is
checked before it, and in what the choice is among.

* `pickRanked` is what is left of a filtered pick when the predicate has been asked about every
  element.  The element is taken out of the array of all matches, where another one moves into its
  place; `map_fst_takeOut` says that it is the right one that is taken.
* `pickIf_exact` is the main statement on filtered picks.
* `pickWeightedBy_exact` is the main statement on weighted picks, of both kinds.  The sum of the
  weights that a function gives is written out in it, from the left and from zero: rounding makes it
  depend on the order.
-/

set_option autoImplicit false

namespace Sortition

variable {C α β σ τ : Type}

/-! ## One request -/

/-- **One request, and a choice by the answer to it.**  The choice does not touch the source. -/
theorem runFrom_bind_request [Source σ] (request : Request) {f : Nat → Draw (Recorded σ) β}
    {choose : Nat → Except Fault β} (hf : ∀ i r, (f i).runFrom r = (choose i, r))
    (r : Recorded σ) : (request.draw >>= f).runFrom r =
      ((request.draw.runFrom r.source).1.bind choose,
        ⟨(request.draw.runFrom r.source).2, request :: r.latestFirst⟩) := by
  have hrecorded := runFrom_draw_recorded request r
  rcases hdrawn : request.draw.runFrom r.source with ⟨fault | i, s'⟩
  · rw [hdrawn] at hrecorded
    exact DrawT.runFrom_bind_of_error f hrecorded
  · rw [hdrawn] at hrecorded
    exact (DrawT.runFrom_bind_of_ok hrecorded).trans (hf i _)

/-- The item at a position, or a fault if there is none. -/
def itemOr (fault : Nat → Fault) (items : List α) (i : Nat) : Except Fault α :=
  if h : i < items.length then .ok items[i] else .error (fault i)

theorem itemOr_of_lt {fault : Nat → Fault} {items : List α} {i : Nat} (h : i < items.length) :
    itemOr fault items i = .ok items[i] :=
  dif_pos h

theorem itemOr_of_le {fault : Nat → Fault} {items : List α} {i : Nat} (h : items.length ≤ i) :
    itemOr fault items i = .error (fault i) :=
  dif_neg (Nat.not_lt_of_le h)

theorem itemOr_eq (fault : Nat → Fault) (items : List α) (i : Nat) :
    itemOr fault items i =
      match items[i]? with
      | some a => .ok a
      | none => .error (fault i) := by
  by_cases h : i < items.length
  · rw [itemOr_of_lt h, List.getElem?_eq_getElem h]
  · rw [itemOr_of_le (by omega), List.getElem?_eq_none (by omega)]

theorem runFrom_elementAt [Sequence C α] [LawfulSequence C α] (kind : PickKind) (c : C) (i : Nat)
    (s : σ) : (elementAt kind c i : Draw σ α).runFrom s =
      (itemOr (.pastEnd kind) (Sequence.toList c) i, s) := by
  rw [elementAt, LawfulSequence.get?_eq, itemOr_eq]
  cases (Sequence.toList c)[i]? <;> rfl

/-- An element is picked by one request for its position. -/
theorem runFrom_pickUniform [Source σ] [Sequence C α] [LawfulSequence C α] {c : C}
    (h : 0 < Sequence.size c) (r : Recorded σ) :
    let request := Request.uniform 0 (Sequence.size c - 1)
    let drawn := request.draw.runFrom r.source
    (pickUniform c).runFrom r = (drawn.1.bind (itemOr (.pastEnd .uniform) (Sequence.toList c)),
      ⟨drawn.2, request :: r.latestFirst⟩) := by
  rw [pickUniform, if_neg (by omega)]
  exact runFrom_bind_request (.uniform 0 (Sequence.size c - 1)) (runFrom_elementAt .uniform c) r

/-! ## Filtered picks -/

/-- The choice among the elements that a filtered pick has found. -/
def pickRanked [Source σ] (found : List α) : Draw σ (Option α) :=
  if found.isEmpty then pure none else do
    let rank ← Source.uniform 0 (found.length - 1)
    match found[rank]? with
    | some a => pure (some a)
    | none => throw (.rankPastMatches rank found.length)

/-- **A filtered pick first asks its predicate about every element, and then draws.** -/
theorem pickIf_eq {m : Type → Type} [Monad m] [LawfulMonad m] [Source σ] [Sequence C α]
    (p : α → m Bool) (c : C) : (pickIf p c : DrawT σ m (Option α)) =
      .ask (siftM p (Sequence.toList c)) >>= fun found => .ofDraw (pickRanked found) := by
  refine bind_congr fun found => ?_
  rw [pickRanked]
  split
  · rfl
  · rw [DrawT.ofDraw_bind]
    refine bind_congr fun rank => ?_
    -- the one that is taken out is the one that stands at the rank
    rw [← List.getElem?_toArray, ← map_fst_takeOut]
    cases takeOut found.toArray rank <;> rfl

theorem runFrom_pickIf {m : Type → Type} [Monad m] [LawfulMonad m] [Source σ] [Sequence C α]
    (p : α → m Bool) (c : C) (s : σ) : (pickIf p c : DrawT σ m (Option α)).runFrom s =
      (fun found => (pickRanked found).runFrom s) <$> siftM p (Sequence.toList c) := by
  rw [pickIf_eq, DrawT.runFrom_bind, DrawT.runFrom_ask, bind_map_left, ← bind_pure_comp]
  rfl

theorem run_runFrom_pickIf_noting [Source σ] [Sequence C α] (p : α → StateM τ Bool) (c : C) (s : σ)
    (memory : τ) :
    let told := ((Sequence.toList c).mapM p).run memory
    ((pickIf (noting p) c).runFrom s).run ⟨memory, []⟩ =
      ((pickRanked (marked told.1 (Sequence.toList c))).runFrom s,
        ⟨told.2, Sequence.toList c⟩) := by
  rw [runFrom_pickIf, StateT.run_map, run_siftM_noting]
  rfl

theorem runFrom_pickRanked [Source σ] {found : List α} (h : found ≠ []) (r : Recorded σ) :
    let request := Request.uniform 0 (found.length - 1)
    let drawn := request.draw.runFrom r.source
    (pickRanked found).runFrom r =
      (drawn.1.bind fun rank => (itemOr (.rankPastMatches · found.length) found rank).map some,
        ⟨drawn.2, request :: r.latestFirst⟩) := by
  rw [pickRanked, if_neg (by simpa using h)]
  refine runFrom_bind_request (.uniform 0 (found.length - 1)) (fun rank r => ?_) r
  rw [itemOr_eq]
  cases found[rank]? <;> rfl

theorem existsUnique_getElem?_iff {items : List α} (hnodup : items.Nodup) {a : α} :
    (∃! i : Nat, items[i]? = some a) ↔ a ∈ items := by
  rw [List.mem_iff_getElem?]
  refine ⟨fun h => h.exists, fun ⟨i, hi⟩ => ⟨i, hi, fun j hj => ?_⟩⟩
  obtain ⟨hlt, -⟩ := List.getElem?_eq_some_iff.1 hj
  exact (List.getElem?_inj hlt hnodup).1 (hj.trans hi.symm)

/-- **A filtered pick is a pick among the matches.**  The predicate is asked about every element
once, in order; and as it has been asked about all of them also where the source stops at the only
request, it is asked before anything is drawn.  The matches stand at `places`, which are ascending
and have every accepted position exactly once, so that ranks and accepted positions correspond one
to one.

* If nothing matches, that is the answer, and the source is as it was.
* Otherwise there is one request, for a rank among the matches.  A rank below their number picks the
  match of this rank, and comes to what a uniform pick from the list of the matches comes to by the
  same answer.  Any other rank is a fault, with the rank and the number of the matches. -/
theorem pickIf_exact [Source σ] [Sequence C α] (p : α → StateM τ Bool) (c : C) (r : Recorded σ)
    (memory : τ) :
    let items := Sequence.toList c
    let told := (items.mapM p).run memory
    let matching := marked told.1 items
    let places := marked told.1 (List.range items.length)
    let request := Request.uniform 0 (matching.length - 1)
    let ran := ((pickIf (noting p) c).runFrom r).run ⟨memory, []⟩
    let stopped := ((pickIf (noting p) c).runFrom (⟨[]⟩ : Script)).run ⟨memory, []⟩
    (ran.2 = ⟨told.2, items⟩ ∧ stopped.2 = ⟨told.2, items⟩) ∧
    (places.Pairwise (· < ·) ∧ (∀ i : Nat, told.1[i]? = some true ↔ ∃! d : Nat, places[d]? = some i) ∧
      matching.map some = places.map fun i => items[i]?) ∧
    (matching = [] → ran.1 = (.ok none, r)) ∧
    (matching ≠ [] →
      ran.1.2.requests = r.requests ++ [request] ∧
      ∀ d s', request.draw.runFrom r.source = (.ok d, s') → ran.1.2.source = s' ∧
        (∀ h : d < matching.length, ran.1.1 = .ok (some matching[d]) ∧
          ran.1 = (some <$> pickUniform matching).runFrom r) ∧
        (matching.length ≤ d → ran.1.1 = .error (.rankPastMatches d matching.length))) := by
  intro items told matching places request ran stopped
  have hran : ran = ((pickRanked matching).runFrom r, ⟨told.2, items⟩) :=
    run_runFrom_pickIf_noting p c r memory
  have hstopped : stopped.2 = ⟨told.2, items⟩ :=
    congrArg Prod.snd (run_runFrom_pickIf_noting p c (⟨[]⟩ : Script) memory)
  have hlength : items.length = told.1.length := (length_run_mapM p items memory).symm
  have hascending : places.Pairwise (· < ·) :=
    List.pairwise_lt_range.sublist (marked_sublist _ _)
  refine ⟨⟨by rw [hran], hstopped⟩, ⟨hascending, fun i => ?_, map_some_marked _ _⟩,
    fun hnone => ?_, fun hsome => ?_⟩
  · have hmem : i ∈ places ↔ told.1[i]? = some true := by
      rw [← mem_marked_range, ← hlength]
    rw [← hmem, existsUnique_getElem?_iff (hascending.imp Nat.ne_of_lt)]
  · rw [hran, hnone]
    rfl
  · have hranked := runFrom_pickRanked hsome r
    rw [hran, hranked]
    refine ⟨by simp [Recorded.requests, request], fun d s' hdrawn => ?_⟩
    rw [hdrawn]
    refine ⟨rfl, fun h => ?_, fun h => congrArg (Except.map some) (itemOr_of_le h)⟩
    have hitem : itemOr (.rankPastMatches · matching.length) matching d = .ok matching[d] :=
      itemOr_of_lt h
    have huniform : (pickUniform matching).runFrom r =
        (.ok matching[d], ⟨s', request :: r.latestFirst⟩) := by
      have hsize : 0 < Sequence.size matching := List.length_pos_iff.2 hsome
      refine (runFrom_pickUniform hsize r).trans ?_
      rw [show Request.uniform 0 (Sequence.size matching - 1) = request from rfl, hdrawn]
      exact congrArg (·, _) (itemOr_of_lt h)
    refine ⟨congrArg (Except.map some) hitem, ?_⟩
    rw [DrawT.runFrom_map_of_ok some huniform]
    exact congrArg (·, _) (congrArg (Except.map some) hitem)

/-- Of five letters the first, the third and the fifth are accepted.  A rank of two is that of the
fifth, and a rank of three is none. -/
theorem pickIf_exact_letters :
    let letters : Deque Char := ⟨#['b', 'a'], #['a', 'd', 'e']⟩
    let p : Char → StateM Nat Bool := fun _ asked => (asked % 2 == 0, asked + 1)
    let ran := fun rank : Nat =>
      ((pickIf (noting p) letters).runFrom (⟨⟨[rank]⟩, []⟩ : Recorded Script)).run ⟨0, []⟩
    marked ((letters.toList.mapM p).run 0).1 letters.toList = ['a', 'a', 'e'] ∧
      (ran 2).1.1 = .ok (some 'e') ∧ (ran 2).1.2.requests = [.uniform 0 2] ∧
      (ran 2).2 = ⟨5, ['a', 'b', 'a', 'd', 'e']⟩ ∧
      (ran 3).1.1 = .error (.rankPastMatches 3 3) := by
  intro letters p ran
  obtain ⟨⟨hnoted, -⟩, -, -, hsome⟩ := pickIf_exact p letters (⟨⟨[2]⟩, []⟩ : Recorded Script) 0
  obtain ⟨-, -, -, hsome'⟩ := pickIf_exact p letters (⟨⟨[3]⟩, []⟩ : Recorded Script) 0
  obtain ⟨hrequests, hrank⟩ := hsome (by decide)
  obtain ⟨-, hpast⟩ := hsome' (by decide)
  exact ⟨rfl, ((hrank 2 ⟨[]⟩ rfl).2.1 (by decide)).1, hrequests, hnoted,
    (hpast 3 ⟨[]⟩ rfl).2.2 (by decide)⟩

/-! ## Weighted picks -/

/-- With as many weights as elements, an element is picked by one request for an index. -/
theorem runFrom_pickWeighted [Source σ] [Sequence C α] [LawfulSequence C α] {weights : List Float}
    {c : C} (h : 0 < Sequence.size c) (hweights : weights.length = Sequence.size c)
    (r : Recorded σ) :
    let request := Request.weighted weights
    let drawn := request.draw.runFrom r.source
    (pickWeighted weights c).runFrom r =
      (drawn.1.bind (itemOr (.pastEnd .weighted) (Sequence.toList c)),
        ⟨drawn.2, request :: r.latestFirst⟩) := by
  rw [pickWeighted, if_neg (by omega), if_neg (by omega)]
  exact runFrom_bind_request (.weighted weights) (runFrom_elementAt .weighted c) r

theorem length_weightsOrEqual (weights : List Float) :
    (weightsOrEqual weights).length = weights.length := by
  rw [weightsOrEqual]
  split
  · exact List.length_replicate
  · rfl

/-- **A pick by a weight function first asks for every weight, and is then a pick by weights.** -/
theorem runFrom_pickWeightedBy {m : Type → Type} [Monad m] [LawfulMonad m] [Source σ]
    [Sequence C α] (weigh : α → m Float) (c : C) (s : σ) :
    (pickWeightedBy weigh c : DrawT σ m α).runFrom s =
      (fun weights => (pickWeighted (weightsOrEqual weights) c).runFrom s) <$>
        (Sequence.toList c).mapM weigh := by
  rw [pickWeightedBy, DrawT.runFrom_bind, DrawT.runFrom_ask, bind_map_left, ← bind_pure_comp]
  rfl

theorem run_runFrom_pickWeightedBy_noting [Source σ] [Sequence C α] (weigh : α → StateM τ Float)
    (c : C) (s : σ) (memory : τ) :
    let told := ((Sequence.toList c).mapM weigh).run memory
    ((pickWeightedBy (noting weigh) c).runFrom s).run ⟨memory, []⟩ =
      ((pickWeighted (weightsOrEqual told.1) c).runFrom s, ⟨told.2, Sequence.toList c⟩) := by
  rw [runFrom_pickWeightedBy, StateT.run_map, run_mapM_noting, List.nil_append]
  rfl

/-- **A weighted pick goes by its weights, or by equal ones.**  A weight function is asked about
every element once, in order, and before anything is drawn, as is seen where the source stops at the
only request.  Let `used` be the weights that it gave, or weights of one, if the sum of those from
the left is at most zero; a sum that is not a number is not.  What comes of the pick is what comes
of picking by the list `used`.  These are as many as the elements, so that nothing but an empty
sequence keeps them from being requested.

Of any list of `weights`, this is what comes of picking by it.

* Without elements, that is the fault, and otherwise it is the number of weights, if it is not that
  of the elements; the source is as it was in both cases.
* In any other case there is one request, with the weights in their order.  An index picks the
  element that stands there, or is past the end. -/
theorem pickWeightedBy_exact [Source σ] [Sequence C α] [LawfulSequence C α]
    (weigh : α → StateM τ Float) (weights : List Float) (c : C) (r : Recorded σ) (memory : τ) :
    let items := Sequence.toList c
    let told := (items.mapM weigh).run memory
    let used :=
      if told.1.foldl (· + ·) 0.0 ≤ 0.0 then List.replicate items.length 1.0 else told.1
    let ran := ((pickWeightedBy (noting weigh) c).runFrom r).run ⟨memory, []⟩
    let stopped := ((pickWeightedBy (noting weigh) c).runFrom (⟨[]⟩ : Script)).run ⟨memory, []⟩
    let listed := (pickWeighted weights c).runFrom r
    ((ran.2 = ⟨told.2, items⟩ ∧ stopped.2 = ⟨told.2, items⟩) ∧
      ran.1 = (pickWeighted used c).runFrom r ∧ used.length = items.length ∧
      (items ≠ [] → ran.1.2.requests = r.requests ++ [.weighted used])) ∧
    (items = [] → listed = (.error (.emptySequence .weighted), r)) ∧
    (items ≠ [] → weights.length ≠ items.length →
      listed = (.error (.weightCount weights.length items.length), r)) ∧
    (items ≠ [] → weights.length = items.length →
      listed.2.requests = r.requests ++ [.weighted weights] ∧
      ∀ i s', (Source.weighted weights).runFrom r.source = (.ok i, s') → listed.2.source = s' ∧
        (∀ h : i < items.length, listed.1 = .ok items[i]) ∧
        (items.length ≤ i → listed.1 = .error (.pastEnd .weighted i))) := by
  intro items told used ran stopped listed
  have hsize : Sequence.size c = items.length := LawfulSequence.size_eq c
  have htold : told.1.length = items.length := length_run_mapM weigh items memory
  have hused : weightsOrEqual told.1 = used := by
    rw [weightsOrEqual, sumWeights, htold]
  have hlength : used.length = items.length := by
    rw [← hused, length_weightsOrEqual, htold]
  have hran : ran = ((pickWeighted used c).runFrom r, ⟨told.2, items⟩) := by
    rw [← hused]
    exact run_runFrom_pickWeightedBy_noting weigh c r memory
  have hstopped : stopped.2 = ⟨told.2, items⟩ :=
    congrArg Prod.snd (run_runFrom_pickWeightedBy_noting weigh c (⟨[]⟩ : Script) memory)
  have hpos (hsome : items ≠ []) : 0 < Sequence.size c := by
    rw [hsize]
    exact List.length_pos_iff.2 hsome
  refine ⟨⟨⟨by rw [hran], hstopped⟩, by rw [hran], hlength, fun hsome => ?_⟩, fun hnone => ?_,
    fun hsome hcount => ?_, fun hsome hcount => ?_⟩
  · rw [hran, runFrom_pickWeighted (hpos hsome) (by rw [hlength, hsize]) r]
    simp [Recorded.requests]
  · have hzero : Sequence.size c = 0 := by rw [hsize, hnone, List.length_nil]
    simp only [listed, pickWeighted, hzero, if_true]
    rfl
  · simp only [listed, pickWeighted, hsize, List.length_eq_zero_iff, hsome, if_false, ne_eq,
      hcount, not_false_eq_true, if_true]
    rfl
  · have hlisted : listed = _ := runFrom_pickWeighted (hpos hsome) (hcount.trans hsize.symm) r
    rw [hlisted]
    refine ⟨by simp [Recorded.requests], fun i s' hdrawn => ?_⟩
    rw [show (Request.weighted weights).draw.runFrom r.source = _ from hdrawn]
    exact ⟨rfl, fun h => itemOr_of_lt h, fun h => itemOr_of_le h⟩

/-- Three letters are given weights in turn.  Where these add up to more than zero, or to what is
not a number, they are the weights that are requested.  Where they do not, ones are: a one that is
added to `2 ^ 53` is lost, and nothing is left when that is taken away again.  Of a list of weights
there must be three, and then an index of three is past the end. -/
theorem pickWeightedBy_exact_letters :
    let letters : Deque Char := ⟨#['b', 'a'], #['c']⟩
    let inTurn (weights : List Float) : Char → StateM Nat Float := fun _ asked =>
      (weights.getD asked 0.0, asked + 1)
    let r : Recorded Script := ⟨⟨[3]⟩, []⟩
    let ran (weights : List Float) :=
      ((pickWeightedBy (noting (inTurn weights)) letters).runFrom r).run ⟨0, []⟩
    (ran [0.5, 0.0, 2.0]).2 = ⟨3, ['a', 'b', 'c']⟩ ∧
      (ran [0.5, 0.0, 2.0]).1.2.requests = [.weighted [0.5, 0.0, 2.0]] ∧
      (ran [9007199254740992.0, 1.0, -9007199254740992.0]).1.2.requests =
        [.weighted [1.0, 1.0, 1.0]] ∧
      (ran [0.5, 0.0 / 0.0, 2.0]).1.2.requests = [.weighted [0.5, 0.0 / 0.0, 2.0]] ∧
      (pickWeighted [0.5, 0.25] letters).runFrom r = (.error (.weightCount 2 3), r) ∧
      ((pickWeighted [0.5, 0.25, 0.0] letters).runFrom r).1 = .error (.pastEnd .weighted 3) := by
  intro letters inTurn r ran
  have hsome : Sequence.toList letters ≠ [] := by decide
  obtain ⟨⟨⟨hnoted, -⟩, -, -, hpositive⟩, -, hcount, -⟩ :=
    pickWeightedBy_exact (inTurn [0.5, 0.0, 2.0]) [0.5, 0.25] letters r 0
  obtain ⟨⟨-, -, -, hnothing⟩, -, -, hlisted⟩ :=
    pickWeightedBy_exact (inTurn [9007199254740992.0, 1.0, -9007199254740992.0]) [0.5, 0.25, 0.0]
      letters r 0
  obtain ⟨⟨-, -, -, hundefined⟩, -⟩ :=
    pickWeightedBy_exact (inTurn [0.5, 0.0 / 0.0, 2.0]) [] letters r 0
  obtain ⟨-, hdrawn⟩ := hlisted hsome rfl
  refine ⟨hnoted, (hpositive hsome).trans ?_, (hnothing hsome).trans ?_,
    (hundefined hsome).trans ?_, hcount hsome (by decide), (hdrawn 3 ⟨[]⟩ rfl).2.2 (by decide)⟩
  · exact congrArg (fun used => [Request.weighted used]) (if_neg (by decide +kernel))
  · exact congrArg (fun used => [Request.weighted used]) (if_pos (by decide +kernel))
  · exact congrArg (fun used => [Request.weighted used]) (if_neg (by decide +kernel))

end Sortition

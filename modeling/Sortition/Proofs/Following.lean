import Sortition.Dealer
import Sortition.Proofs.Inquiries
import Sortition.Proofs.Trimming

/-!
# What is done with a dealer follows its engine

A dealer can be the source of every general function, and then each single draw asks it for its
engine.  `Follows d e` says that nothing is lost by that: a computation `d` on a dealer comes to
what the computation `e` comes to on the engine, started if it was not, and the engine is afterwards
what `e` has made of it.  It is a congruence for sequencing (`Follows.bind`), and it holds of the
words, which are all that a dealer supplies (`follows_onEngine`); so it holds of what is made of
them, from the numbers in a range to the picks, the passes over a container, and the shuffles.

The lemmas are in the order of the functions that they are about, one for each, and each is proved
as its function is defined.  Only trimming needs more.  It hands draws to a container's own way of
erasing, of which nothing is known but that it asks (`AsksOnly`); what two predicates answer that
follow one another is compared along the questions, in `follows_answerBy`.
-/

set_option autoImplicit false

namespace Sortition

namespace Dealer

variable {ε α β : Type} {m : Type → Type} [Seedable ε] [Monad m]

/-- What comes of `d` on a dealer is what comes of `e` on its engine.  Of the dealer there are seen
its seed and its engine, as it is or as it would be started: the engine may be started in the course
of `d`, and it need not be, if nothing is drawn. -/
def Follows (d : DrawT (Dealer ε) m α) (e : DrawT ε m α) : Prop :=
  ∀ dealer : Dealer ε, (fun r => (r.1, r.2.seed, r.2.started)) <$> d.runFrom dealer =
    (fun r => (r.1, dealer.seed, r.2)) <$> e.runFrom dealer.started

/-- What is seen of a computation that goes on with `f`, if what has been seen so far is an outcome,
a seed and an engine. -/
def seenAfter (f : α → DrawT ε m β) : Except Fault α × Option UInt64 × ε →
    m (Except Fault β × Option UInt64 × ε)
  | (.ok a, seed, engine) => (fun r => (r.1, seed, r.2)) <$> (f a).runFrom engine
  | (.error fault, seed, engine) => pure (.error fault, seed, engine)

variable [LawfulMonad m]

/-- What is run on the engine of a dealer. -/
theorem follows_onEngine (e : DrawT ε m α) :
    Follows (onEngine e : DrawT (Dealer ε) m α) e := by
  intro dealer
  rw [onEngine, DrawT.runFrom_onPart, Functor.map_map]
  rfl

theorem follows_ask (x : m α) : Follows (.ask x : DrawT (Dealer ε) m α) (.ask x) := by
  intro dealer
  simp [DrawT.runFrom_ask]

theorem follows_pure (a : α) : Follows (pure a : DrawT (Dealer ε) m α) (pure a) := by
  intro dealer
  show _ <$> pure _ = _ <$> pure _
  rw [map_pure, map_pure]

theorem follows_throw (fault : Fault) :
    Follows (throw fault : DrawT (Dealer ε) m α) (throw fault) := by
  intro dealer
  show _ <$> pure _ = _ <$> pure _
  rw [map_pure, map_pure]

/-- **Sequences follow one another if their parts do.** -/
theorem Follows.bind {d : DrawT (Dealer ε) m α} {e : DrawT ε m α} {f : α → DrawT (Dealer ε) m β}
    {g : α → DrawT ε m β} (h : Follows d e) (hfg : ∀ a, Follows (f a) (g a)) :
    Follows (d >>= f) (e >>= g) := by
  intro dealer
  have hd : (fun r => (r.1, r.2.seed, r.2.started)) <$> (d >>= f).runFrom dealer =
      d.runFrom dealer >>= fun r => seenAfter g (r.1, r.2.seed, r.2.started) := by
    rw [DrawT.runFrom_bind, map_bind]
    refine bind_congr fun r => ?_
    rcases r with ⟨_ | a, dealer'⟩
    · exact map_pure _ _
    · exact hfg a dealer'
  have he : (fun r => (r.1, dealer.seed, r.2)) <$> (e >>= g).runFrom dealer.started =
      e.runFrom dealer.started >>= fun r => seenAfter g (r.1, dealer.seed, r.2) := by
    rw [DrawT.runFrom_bind, map_bind]
    refine bind_congr fun r => ?_
    rcases r with ⟨_ | a, engine⟩
    · exact map_pure _ _
    · rfl
  rw [hd, he]
  simpa only [bind_map_left] using congrArg (· >>= seenAfter g) (h dealer)

theorem Follows.map {d : DrawT (Dealer ε) m α} {e : DrawT ε m α} (f : α → β) (h : Follows d e) :
    Follows (f <$> d) (f <$> e) := by
  rw [← bind_pure_comp, ← bind_pure_comp]
  exact h.bind fun a => follows_pure (f a)

/-- A check that stands in front. -/
theorem Follows.unless {d : DrawT (Dealer ε) m α} {e : DrawT ε m α} (P : Prop) [Decidable P]
    (fault : Fault) (h : Follows d e) :
    Follows (if P then throw fault >>= fun _ : PUnit => d else d)
      (if P then throw fault >>= fun _ : PUnit => e else e) := by
  split
  · exact (follows_throw fault).bind fun _ => h
  · exact h

theorem Follows.ofDraw {d : Draw (Dealer ε) α} {e : Draw ε α} (h : Follows d e) :
    Follows (.ofDraw d : DrawT (Dealer ε) m α) (.ofDraw e) := by
  intro dealer
  have h := h dealer
  simp only [DrawT.runFrom_ofDraw, map_pure]
  exact congrArg pure h

/-! ## Draws -/

theorem follows_word (width : WordWidth) :
    Follows (Engine.word width : Draw (Dealer ε) Nat) (Engine.word width) := by
  cases width with
  | bits32 => exact (follows_onEngine _).map _
  | bits64 => exact (follows_onEngine _).map _

theorem follows_below (width : WordWidth) (range : Nat) :
    Follows (Engine.below width range : Draw (Dealer ε) Nat) (Engine.below width range) := by
  unfold Engine.below
  refine (follows_word width).bind fun first => ?_
  dsimp only
  split
  · exact follows_pure first
  · split
    · exact (follows_word width).bind fun second => follows_pure _
    · exact follows_pure _

theorem follows_uniform (lo hi : Nat) :
    Follows (Source.uniform lo hi : Draw (Dealer ε) Nat) (Source.uniform lo hi) := by
  exact .unless _ _ ((follows_below _ _).bind fun offset => follows_pure (lo + offset))

theorem follows_weighted (weights : List Float) :
    Follows (Source.weighted weights : Draw (Dealer ε) Nat) (Source.weighted weights) := by
  show Follows (Engine.weighted weights) (Engine.weighted weights)
  unfold Engine.weighted
  split
  · exact follows_throw _
  · exact (follows_onEngine _).bind fun w => follows_pure _

/-! ## Picking -/

section

variable {C : Type} [Sequence C α]

theorem follows_elementAt (kind : PickKind) (c : C) (i : Nat) :
    Follows (elementAt kind c i : Draw (Dealer ε) α) (elementAt kind c i) := by
  unfold elementAt
  split
  · exact follows_pure _
  · exact follows_throw _

theorem follows_pickUniform (c : C) :
    Follows (pickUniform c : Draw (Dealer ε) α) (pickUniform c) :=
  .unless _ _ ((follows_uniform _ _).bind fun i => follows_elementAt _ c i)

theorem follows_pickIf (p : α → m Bool) (c : C) :
    Follows (Sortition.pickIf p c : DrawT (Dealer ε) m (Option α)) (Sortition.pickIf p c) := by
  unfold Sortition.pickIf
  refine (follows_ask _).bind fun found => ?_
  split
  · exact follows_pure none
  · refine (follows_uniform _ _).ofDraw.bind fun rank => ?_
    split
    · exact follows_pure _
    · exact follows_throw _

theorem follows_pickWeighted (weights : List Float) (c : C) :
    Follows (Sortition.pickWeighted weights c : Draw (Dealer ε) α)
      (Sortition.pickWeighted weights c) :=
  .unless _ _ (.unless _ _ ((follows_weighted _).bind fun i => follows_elementAt _ c i))

theorem follows_pickWeightedBy (weigh : α → m Float) (c : C) :
    Follows (Sortition.pickWeightedBy weigh c : DrawT (Dealer ε) m α)
      (Sortition.pickWeightedBy weigh c) :=
  (follows_ask _).bind fun _ => (follows_pickWeighted _ c).ofDraw

end

/-! ## Trimming -/

section

variable {C S : Type} [Erasable C α] [AsksOnly C α]

/-- Answers to the same questions, by predicates that follow one another. -/
theorem follows_answerBy {p : α → StateT S (Draw (Dealer ε)) Bool}
    {p' : α → StateT S (Draw ε) Bool} (h : ∀ a s, Follows ((p a).run s) ((p' a).run s))
    (x : Inquiry α β) (s : S) : Follows ((x.answerBy p).run s) ((x.answerBy p').run s) := by
  induction x generalizing s with
  | done result => exact follows_pure (result, s)
  | ask item next ih =>
    rw [Inquiry.answerBy, Inquiry.answerBy, StateT.run_bind, StateT.run_bind]
    exact (h item s).bind fun r => ih r.1 r.2

theorem follows_dropNext (q : Quota) :
    Follows ((Quota.dropNext : StateT Quota (Draw (Dealer ε)) Bool).run q)
      (Quota.dropNext.run q) := by
  refine (follows_uniform 1 q.left).bind fun drawn => ?_
  split
  · exact follows_throw _
  · exact follows_pure _

/-- A pass over a container asks its questions and no others, whoever answers them. -/
theorem follows_trim (k : Nat) (c : C) :
    Follows (Sortition.trim k c : Draw (Dealer ε) C) (Sortition.trim k c) := by
  unfold Sortition.trim
  split
  · exact follows_pure c
  · have herase : ∀ {σ : Type} [Source σ], Erasable.eraseIfM (fun _ => Quota.dropNext) c =
        (Erasable.eraseIfM Inquiry.about c).answerBy
          fun _ => (Quota.dropNext : StateT Quota (Draw σ) Bool) :=
      (AsksOnly.answerBy_eraseIfM _ c).symm
    rw [herase, herase, StateT.run'_eq, StateT.run'_eq]
    exact (follows_answerBy (fun _ => follows_dropNext) _ _).map _

theorem follows_trimIf (p : α → m Bool) (k : Nat) (c : C) :
    Follows (Sortition.trimIf p k c : DrawT (Dealer ε) m C) (Sortition.trimIf p k c) := by
  refine (follows_ask _).bind fun accepted => ?_
  split
  · exact follows_pure accepted
  · exact (follows_trim k accepted).ofDraw

end

/-! ## Shuffling -/

theorem follows_refill (s : IndexCutter) :
    Follows (s.refill : Draw (Dealer ε) IndexCutter) s.refill := by
  unfold IndexCutter.refill
  split
  · exact (follows_uniform _ _).bind fun numeral => follows_pure _
  · exact follows_pure s

theorem follows_takeIndices (n : Nat) (s : IndexCutter) :
    Follows (IndexCutter.takeIndices n s : Draw (Dealer ε) (List Nat))
      (IndexCutter.takeIndices n s) := by
  induction n generalizing s with
  | zero => exact follows_pure []
  | succ n ih =>
    exact (follows_refill s).bind fun filled => (ih _).bind fun rest => follows_pure _

theorem follows_drawIndices (i n : Nat) :
    Follows (drawIndices i n : Draw (Dealer ε) (List Nat)) (drawIndices i n) := by
  induction n generalizing i with
  | zero => exact follows_pure []
  | succ n ih =>
    exact (follows_below _ _).bind fun index => (ih (i + 1)).bind fun rest => follows_pure _

theorem follows_shuffle (items : Array α) :
    Follows (Sortition.shuffle items : Draw (Dealer ε) (Array α)) (Sortition.shuffle items) := by
  have hindices : Follows (shuffleIndices items.size : Draw (Dealer ε) (List Nat))
      (shuffleIndices items.size) := by
    unfold shuffleIndices
    split
    · exact follows_pure []
    · split
      · exact follows_takeIndices _ _
      · exact follows_drawIndices _ _
  refine hindices.bind fun indices => ?_
  split
  · exact follows_pure _
  · exact follows_throw _

end Dealer

end Sortition

import Sortition.Proofs.Following
import Sortition.Proofs.Histories
import Sortition.Session.Supply

/-!
# Dealers and engines that were started in advance

A dealer starts its engine when it is first needed, which can be inside any operation, also one that
then draws nothing or stops with a fault, and its operations can be had in two ways.  It is given
new seeds, copied, and exchanged for copies in between.  A `Prepared` engine knows nothing of all
that: it is started at once, whenever a seed is given, and whatever is done is done by the general
functions on that engine.  The main statement, `play_seeded`, is that nobody can tell the two apart.

What can be done is a list of `Deed`s, and `play` is the one loop that takes them in turn, for both.
Dealers and prepared engines differ in the four functions of `Dealing`, which say how an operation
is made, what the seed is, and what a new seed and a copy are.

The containers that are dealt from, whatever there is of them, lie on a table of some type `T`.  An
operation finds its container there, and puts what it comes to back on the table: a container that
has been cut down, an element, a number.  So the table after a deed shows every answer so far.  A
fault does not end a game, but a container that was being changed is lost to it.

`Stands` is the relation that the deeds keep: the dealer's seed is the one that the engine was
started from, and the dealer's engine, be it started or not, is the engine as it is now.
-/

set_option autoImplicit false

namespace Sortition

variable {ε σ T τ C α : Type}

/-! ## Operations -/

/-- The ways to pick an element.  Predicates and weight functions share a memory of type `τ`. -/
inductive Selection (τ α : Type)
  | uniform
  | satisfying (p : α → StateM τ Bool)
  | weighted (weights : List Float)
  | weightedBy (weigh : α → StateM τ Float)

namespace Selection

/-- Pick by the general functions; `none` if there is nothing that a predicate accepts. -/
def apply [Sequence C α] [Source σ] (c : C) : Selection τ α → DrawT σ (StateM τ) (Option α)
  | uniform => .ofDraw (some <$> pickUniform c)
  | satisfying p => pickIf p c
  | weighted weights => .ofDraw (some <$> pickWeighted weights c)
  | weightedBy weigh => some <$> pickWeightedBy weigh c

/-- Pick by the functions of a dealer. -/
def applyDealer [Sequence C α] [Seedable ε] (c : C) :
    Selection τ α → DrawT (Dealer ε) (StateM τ) (Option α)
  | uniform => .ofDraw (some <$> Dealer.pick c)
  | satisfying p => Dealer.pickIf p c
  | weighted weights => .ofDraw (some <$> Dealer.pickWeighted weights c)
  | weightedBy weigh => some <$> Dealer.pickWeightedBy weigh c

end Selection

/-- Cut a container down by the functions of a dealer; it has none for mere erasing. -/
def Cut.applyDealer [Erasable C α] [Seedable ε] (c : C) : Cut τ α → DrawT (Dealer ε) (StateM τ) C
  | erase p => .ask (Erasable.eraseIfM p c)
  | trim k => .ofDraw (Dealer.trim k c)
  | trimIf p k => Dealer.trimIf p k c

/-- What can be done with an engine, to what is on a table of type `T`. -/
inductive Operation (T τ : Type) : Type 1
  /-- Pick an element from a sequence. -/
  | pick {C α : Type} [Sequence C α] (find : T → C) (how : Selection τ α) (put : Option α → T → T)
  /-- Cut a container down; a fault takes it from the table. -/
  | cut {C α : Type} [Erasable C α] [AsksOnly C α] (find : T → C) (how : Cut τ α) (put : C → T → T)
    (lose : T → T)
  /-- Put a slice into a random order; a fault takes it from the table. -/
  | shuffle {α : Type} (find : T → Array α) (put : Array α → T → T) (lose : T → T)
  /-- Draw a number in a closed range. -/
  | uniform (lo hi : Nat) (put : Nat → T → T)
  /-- Draw an index by weight. -/
  | weighted (weights : List Float) (put : Nat → T → T)
  /-- Take 32 bits. -/
  | nextU32 (put : UInt32 → T → T)
  /-- Take 64 bits. -/
  | nextU64 (put : UInt64 → T → T)
  /-- Take `n` bytes. -/
  | fill (n : Nat) (put : List UInt8 → T → T)

namespace Operation

/-- Make an operation by the general functions, on any engine. -/
def apply [Engine σ] (table : T) : Operation T τ → DrawT σ (StateM τ) T
  | pick find how put => (put · table) <$> how.apply (find table)
  | cut find how put _ => (put · table) <$> how.apply (find table)
  | shuffle find put _ => (put · table) <$> .ofDraw (Sortition.shuffle (find table))
  | uniform lo hi put => (put · table) <$> .ofDraw (Source.uniform lo hi)
  | weighted weights put => (put · table) <$> .ofDraw (Source.weighted weights)
  | nextU32 put => (put · table) <$> .ofDraw Engine.nextU32
  | nextU64 put => (put · table) <$> .ofDraw Engine.nextU64
  | fill n put => (put · table) <$> .ofDraw (Engine.fill n)

/-- Make an operation by the functions of a dealer.  Numbers and words are drawn from it as from
any engine. -/
def applyDealer [Seedable ε] (table : T) : Operation T τ → DrawT (Dealer ε) (StateM τ) T
  | pick find how put => (put · table) <$> how.applyDealer (find table)
  | cut find how put _ => (put · table) <$> how.applyDealer (find table)
  | shuffle find put _ => (put · table) <$> .ofDraw (Dealer.shuffle (find table))
  | op => op.apply table

/-- The table after a fault in the course of an operation. -/
def afterFault (table : T) : Operation T τ → T
  | cut _ _ _ lose | shuffle _ _ lose => lose table
  | _ => table

end Operation

/-! ## Deeds -/

/-- What can be done with a dealer, or with what stands for one. -/
class Dealing (P : Type) where
  /-- Make an operation, by the one way or the other. -/
  operate {T τ : Type} (route : Route) (op : Operation T τ) (table : T) : DrawT P (StateM τ) T
  /-- The seed, if there is one. -/
  seed? : P → Option UInt64
  /-- Give a new seed. -/
  withSeed : P → UInt64 → P
  /-- A copy, with what it will be started from if it has no seed. -/
  copyWith : P → UInt64 → P

instance [Seedable ε] : Dealing (Dealer ε) where
  operate route op table :=
    match route with
    | .method => op.applyDealer table
    | .source => op.apply table
  seed? d := d.seed
  withSeed := Dealer.withSeed
  copyWith := Dealer.copyWith

/-- A seed, and the engine that was started from it when it was given. -/
structure Prepared (ε : Type) where
  seed : UInt64
  engine : ε

/-- Start an engine. -/
def Prepared.ofSeed [Seedable ε] (seed : UInt64) : Prepared ε := ⟨seed, Seedable.ofSeed seed⟩

instance [Seedable ε] : Dealing (Prepared ε) where
  operate _ op table := (op.apply table).onPart Prepared.engine fun engine p => { p with engine }
  seed? p := some p.seed
  withSeed _ seed := .ofSeed seed
  copyWith p _ := p

/-- What is done in the course of a game. -/
inductive Deed (T τ : Type) : Type 1
  /-- Make an operation. -/
  | operate (route : Route) (op : Operation T τ)
  /-- Ask for the seed. -/
  | seed (put : Option UInt64 → T → T)
  /-- Give a new seed. -/
  | reseed (newSeed : UInt64)
  /-- Put a copy aside. -/
  | save (entropy : UInt64)
  /-- Exchange with one that was put aside, if there is one with that number. -/
  | swap (i : Nat)

/-- Who deals, who was put aside, what is on the table, and what predicates and weight functions
remember. -/
structure Game (P T τ : Type) where
  dealer : P
  saved : List P
  table : T
  memory : τ

/-- How a game stands after a deed: the fault that stopped the deed, if there was one, the table,
and what predicates and weight functions remember. -/
structure Standing (T τ : Type) where
  fault : Option Fault
  table : T
  memory : τ

section

variable {P : Type} [Dealing P]

namespace Deed

/-- Do a deed: the fault that stopped it, if there was one, and the game after it. -/
def apply (g : Game P T τ) : Deed T τ → Option Fault × Game P T τ
  | operate route op =>
    match ((Dealing.operate route op g.table).runFrom g.dealer).run g.memory with
    | ((.ok table, dealer), memory) => (none, { g with dealer, table, memory })
    | ((.error fault, dealer), memory) =>
      (some fault, { g with dealer, table := op.afterFault g.table, memory })
  | seed put => (none, { g with table := put (Dealing.seed? g.dealer) g.table })
  | reseed newSeed => (none, { g with dealer := Dealing.withSeed g.dealer newSeed })
  | save entropy => (none, { g with saved := g.saved ++ [Dealing.copyWith g.dealer entropy] })
  | swap i =>
    match g.saved[i]? with
    | some other => (none, { g with dealer := other, saved := g.saved.set i g.dealer })
    | none => (none, g)

end Deed

/-- How a game stands after each of several deeds. -/
def play : List (Deed T τ) → Game P T τ → List (Standing T τ)
  | [], _ => []
  | deed :: deeds, g =>
    let (fault, after) := deed.apply g
    ⟨fault, after.table, after.memory⟩ :: play deeds after

end

/-! ## Operations on a dealer and on its engine -/

section

variable [Seedable ε]

theorem Selection.follows_apply [Sequence C α] (how : Selection τ α) (c : C) :
    Dealer.Follows (how.apply c : DrawT (Dealer ε) (StateM τ) (Option α)) (how.apply c) := by
  cases how with
  | uniform => exact ((Dealer.follows_pickUniform c).map some).ofDraw
  | satisfying p => exact Dealer.follows_pickIf p c
  | weighted weights => exact ((Dealer.follows_pickWeighted weights c).map some).ofDraw
  | weightedBy weigh => exact (Dealer.follows_pickWeightedBy weigh c).map some

theorem Selection.follows_applyDealer [Sequence C α] (how : Selection τ α) (c : C) :
    Dealer.Follows (how.applyDealer c : DrawT (Dealer ε) (StateM τ) (Option α)) (how.apply c) := by
  cases how with
  | uniform => exact ((Dealer.follows_onEngine _).map some).ofDraw
  | satisfying p => exact Dealer.follows_onEngine _
  | weighted weights => exact ((Dealer.follows_onEngine _).map some).ofDraw
  | weightedBy weigh => exact (Dealer.follows_onEngine _).map some

theorem Cut.follows_apply [Erasable C α] [AsksOnly C α] (how : Cut τ α) (c : C) :
    Dealer.Follows (how.apply c : DrawT (Dealer ε) (StateM τ) C) (how.apply c) := by
  cases how with
  | erase p => exact Dealer.follows_ask _
  | trim k => exact (Dealer.follows_trim k c).ofDraw
  | trimIf p k => exact Dealer.follows_trimIf p k c

theorem Cut.follows_applyDealer [Erasable C α] (how : Cut τ α) (c : C) :
    Dealer.Follows (how.applyDealer c : DrawT (Dealer ε) (StateM τ) C) (how.apply c) := by
  cases how with
  | erase p => exact Dealer.follows_ask _
  | trim k => exact (Dealer.follows_onEngine _).ofDraw
  | trimIf p k => exact Dealer.follows_onEngine _

theorem Operation.follows_apply (op : Operation T τ) (table : T) :
    Dealer.Follows (op.apply table : DrawT (Dealer ε) (StateM τ) T) (op.apply table) := by
  cases op with
  | pick find how put => exact (how.follows_apply (find table)).map _
  | cut find how put _ => exact (how.follows_apply (find table)).map _
  | shuffle find put _ => exact (Dealer.follows_shuffle (find table)).ofDraw.map _
  | uniform lo hi put => exact (Dealer.follows_uniform lo hi).ofDraw.map _
  | weighted weights put => exact (Dealer.follows_weighted weights).ofDraw.map _
  | nextU32 put => exact (Dealer.follows_onEngine _).ofDraw.map _
  | nextU64 put => exact (Dealer.follows_onEngine _).ofDraw.map _
  | fill n put => exact (Dealer.follows_onEngine _).ofDraw.map _

theorem Operation.follows_applyDealer (op : Operation T τ) (table : T) :
    Dealer.Follows (op.applyDealer table : DrawT (Dealer ε) (StateM τ) T) (op.apply table) := by
  cases op with
  | pick find how put => exact (how.follows_applyDealer (find table)).map _
  | cut find how put _ => exact (how.follows_applyDealer (find table)).map _
  | shuffle find put _ => exact (Dealer.follows_onEngine _).ofDraw.map _
  | uniform lo hi put => exact (uniform lo hi put).follows_apply table
  | weighted weights put => exact (weighted weights put).follows_apply table
  | nextU32 put => exact (nextU32 put).follows_apply table
  | nextU64 put => exact (nextU64 put).follows_apply table
  | fill n put => exact (fill n put).follows_apply table

/-! ## The simulation -/

/-- A prepared engine stands for a dealer: the dealer's seed is the one it was started from, and the
dealer's engine, once it is started, is that engine as it is now. -/
structure Stands (d : Dealer ε) (p : Prepared ε) : Prop where
  seed : d.seed = some p.seed
  started : d.started = p.engine

theorem stands_withSeed (d : Dealer ε) (newSeed : UInt64) :
    Stands (d.withSeed newSeed) (Prepared.ofSeed newSeed) := ⟨rfl, rfl⟩

theorem Stands.copyWith {d : Dealer ε} {p : Prepared ε} (h : Stands d p) (entropy : UInt64) :
    Stands (d.copyWith entropy) p := by
  refine ⟨h.seed, ?_⟩
  rw [← h.started, Dealer.started, Dealer.started, Dealer.copyWith, h.seed]
  rfl

/-- An operation comes to the same, and the engine stands for the dealer afterwards. -/
theorem Stands.operate {d : Dealer ε} {p : Prepared ε} (h : Stands d p) (route : Route)
    (op : Operation T τ) (table : T) (memory : τ) :
    ∃ (outcome : Except Fault T) (d' : Dealer ε) (p' : Prepared ε) (memory' : τ),
      ((Dealing.operate route op table).runFrom d).run memory = ((outcome, d'), memory') ∧
      ((Dealing.operate route op table).runFrom p).run memory = ((outcome, p'), memory') ∧
      Stands d' p' := by
  have hfollows : Dealer.Follows (Dealing.operate route op table : DrawT (Dealer ε) (StateM τ) T)
      (op.apply table) := by
    cases route with
    | method => exact op.follows_applyDealer table
    | source => exact op.follows_apply table
  have hd := congrArg (fun x => StateT.run x memory) (hfollows d)
  have hp := congrArg (fun x => StateT.run x memory) (DrawT.runFrom_onPart Prepared.engine
    (fun engine p => { p with engine }) (op.apply table : DrawT ε (StateM τ) T) p)
  simp only [StateT.run_map, h.started, h.seed] at hd hp
  rcases hrun : ((op.apply table).runFrom p.engine).run memory with ⟨⟨outcome, engine⟩, memory'⟩
  rcases hrun' : ((Dealing.operate route op table).runFrom d).run memory with
    ⟨⟨outcome', d'⟩, memory''⟩
  rw [hrun, hrun'] at hd
  rw [hrun] at hp
  have hseen : ((outcome', d'.seed, d'.started), memory'') =
      ((outcome, some p.seed, engine), memory') := hd
  simp only [Prod.mk.injEq] at hseen
  obtain ⟨⟨rfl, hseed, hstarted⟩, rfl⟩ := hseen
  exact ⟨_, d', _, _, rfl, hp, hseed, hstarted⟩

theorem rel_getElem? {A B : Type} {R : A → B → Prop} {as : List A} {bs : List B}
    (h : List.Forall₂ R as bs) (i : Nat) : Option.Rel R as[i]? bs[i]? := by
  induction h generalizing i with
  | nil => exact .none
  | cons hab _ ih =>
    cases i with
    | zero => exact .some hab
    | succ i => exact ih i

theorem rel_set {A B : Type} {R : A → B → Prop} {as : List A} {bs : List B} {a : A} {b : B}
    (h : List.Forall₂ R as bs) (hab : R a b) (i : Nat) :
    List.Forall₂ R (as.set i a) (bs.set i b) := by
  induction h generalizing i with
  | nil => exact .nil
  | cons hhead htail ih =>
    cases i with
    | zero => exact .cons hab htail
    | succ i => exact .cons hhead (ih i)

/-- Two games stand alike. -/
structure Alike (g : Game (Dealer ε) T τ) (g' : Game (Prepared ε) T τ) : Prop where
  dealer : Stands g.dealer g'.dealer
  saved : List.Forall₂ Stands g.saved g'.saved
  table : g.table = g'.table
  memory : g.memory = g'.memory

/-- **A deed comes to the same for both, and they stand alike afterwards.** -/
theorem Alike.apply {g : Game (Dealer ε) T τ} {g' : Game (Prepared ε) T τ} (h : Alike g g')
    (deed : Deed T τ) :
    (deed.apply g).1 = (deed.apply g').1 ∧ Alike (deed.apply g).2 (deed.apply g').2 := by
  obtain ⟨dealer, saved, table, memory⟩ := g
  obtain ⟨dealer', saved', table', memory'⟩ := g'
  obtain ⟨hdealer, hsaved, rfl, rfl⟩ := h
  cases deed with
  | operate route op =>
    obtain ⟨outcome, d, p, after, hd, hp, hstands⟩ := hdealer.operate route op table memory
    simp only [Deed.apply, hd, hp]
    cases outcome with
    | ok table => exact ⟨rfl, hstands, hsaved, rfl, rfl⟩
    | error fault => exact ⟨rfl, hstands, hsaved, rfl, rfl⟩
  | seed put => exact ⟨rfl, hdealer, hsaved, congrArg (put · table) hdealer.seed, rfl⟩
  | reseed newSeed => exact ⟨rfl, stands_withSeed dealer newSeed, hsaved, rfl, rfl⟩
  | save entropy =>
    have hcopy := hdealer.copyWith entropy
    exact ⟨rfl, hdealer, List.rel_append hsaved (.cons hcopy .nil), rfl, rfl⟩
  | swap i =>
    have hother := rel_getElem? hsaved i
    simp only [Deed.apply]
    generalize saved[i]? = other, saved'[i]? = other' at hother
    cases hother with
    | none => exact ⟨rfl, hdealer, hsaved, rfl, rfl⟩
    | some hother => exact ⟨rfl, hother, rel_set hsaved hdealer i, rfl, rfl⟩

/-- Games that stand alike go on alike. -/
theorem Alike.play {g : Game (Dealer ε) T τ} {g' : Game (Prepared ε) T τ} (h : Alike g g')
    (deeds : List (Deed T τ)) : play deeds g = play deeds g' := by
  induction deeds generalizing g g' with
  | nil => rfl
  | cons deed deeds ih =>
    obtain ⟨hfault, hafter⟩ := h.apply deed
    rw [Sortition.play, Sortition.play]
    simp only [hfault, hafter.table, hafter.memory, ih hafter]

/-- **Nobody can tell a dealer from an engine that was started in advance.**  Whatever is done, in
whatever order, by the one way or the other, with a dealer that was given a seed, with its copies
and with what they were exchanged for: after every deed the table shows the same, the predicates and
weight functions remember the same, and the same fault has stopped the deed, if there was one. -/
theorem play_seeded (seed entropy : UInt64) (deeds : List (Deed T τ)) (table : T) (memory : τ) :
    let prepared : Game (Prepared ε) T τ := ⟨.ofSeed seed, [], table, memory⟩
    play deeds ⟨(Dealer.seeded seed : Dealer ε), [], table, memory⟩ = play deeds prepared ∧
      play deeds ⟨(Dealer.unseeded entropy : Dealer ε).withSeed seed, [], table, memory⟩ =
        play deeds prepared := by
  intro prepared
  have halike : ∀ d : Dealer ε, Alike ⟨d.withSeed seed, [], table, memory⟩ prepared := fun d =>
    ⟨stands_withSeed d seed, .nil, rfl, rfl⟩
  exact ⟨(halike _).play deeds, (halike _).play deeds⟩

/-- The dealer cuts the first row down, as the source of the general function.  A copy that was put
aside before cuts the second row down, by the function of dealers, and leaves the same letters. -/
example :
    let letters := ['a', 'b', 'c', 'd', 'e']
    let first : Operation (List Char × List Char) Unit :=
      .cut (·.1) (.trim 2) (fun left rows => (left, rows.2)) fun rows => ([], rows.2)
    let second : Operation (List Char × List Char) Unit :=
      .cut (·.2) (.trim 2) (fun left rows => (rows.1, left)) fun rows => (rows.1, [])
    let deeds := [.save 0, .operate .source first, .swap 0, .operate .method second]
    (play deeds ⟨(Dealer.seeded 3 : Dealer SplitMix), [], (letters, letters), ()⟩).map (·.table) =
      [(letters, letters), (['a', 'd'], letters), (['a', 'd'], letters),
        (['a', 'd'], ['a', 'd'])] := by
  decide

end

end Sortition

import Sortition.Fault

/-!
# Draws, and what answers them

A computation that draws is a state transformer on its source which may stop with a `Fault`; what
the source has become is known also after a fault.  `DrawT σ m` runs over a base monad `m`, so that
a predicate or a weight function with a state of its own (`m := StateM τ`) can be asked in the
course of it, and so that its state, too, outlives a fault.  `Draw σ` is the case without one.

A `Source` supplies the two draws that the algorithms of this library make: a number in a closed
range and an index by weight.  Nothing is promised of the answers.  A source may answer outside the
range it was asked for, and the algorithms say what happens then; a theorem that needs honest
answers says so.
-/

set_option autoImplicit false

namespace Sortition

/-- Computations that draw from a source `σ`, may stop with a fault, and run over `m`. -/
abbrev DrawT (σ : Type) (m : Type → Type) (α : Type) : Type :=
  ExceptT Fault (StateT σ m) α

/-- Computations that draw from a source `σ` and may stop with a fault. -/
abbrev Draw (σ α : Type) : Type := DrawT σ Id α

namespace DrawT

variable {σ ρ : Type} {m : Type → Type} {α : Type}

/-- Run a computation from a source: its outcome, and what the source has become. -/
def runFrom (d : DrawT σ m α) (source : σ) : m (Except Fault α × σ) :=
  (ExceptT.run d).run source

/-- The computation that acts on the source as `f` says. -/
def ofRun (f : σ → m (Except Fault α × σ)) : DrawT σ m α :=
  ExceptT.mk fun source => f source

/-- Ask something of the base monad; the source is not touched. -/
def ask [Monad m] (x : m α) : DrawT σ m α :=
  ofRun fun source => do
    let a ← x
    pure (.ok a, source)

/-- A draw inside a computation over any base monad, which it leaves alone. -/
def ofDraw [Monad m] (d : Draw σ α) : DrawT σ m α :=
  ofRun fun source => pure (Id.run (d.runFrom source))

/-- A computation on a source `ρ` that is a part of `σ`. -/
def onPart [Monad m] (get : σ → ρ) (set : ρ → σ → σ) (d : DrawT ρ m α) : DrawT σ m α :=
  ofRun fun source => do
    let (outcome, part) ← d.runFrom (get source)
    pure (outcome, set part source)

/-! ### Runs

A computation is known by its runs: the outcome and the source after it, for every source. -/

section

variable {β : Type}

theorem ext {d e : DrawT σ m α} (h : ∀ source, d.runFrom source = e.runFrom source) : d = e :=
  funext h

variable [Monad m]

theorem runFrom_ofDraw (d : Draw σ α) (source : σ) :
    (ofDraw d : DrawT σ m α).runFrom source = pure (d.runFrom source) := rfl

theorem runFrom_ask [LawfulMonad m] (x : m α) (source : σ) :
    (ask x : DrawT σ m α).runFrom source = (fun a => (.ok a, source)) <$> x := by
  rw [← bind_pure_comp]
  rfl

theorem runFrom_onPart {ρ : Type} [LawfulMonad m] (get : σ → ρ) (set : ρ → σ → σ) (d : DrawT ρ m α)
    (source : σ) : (d.onPart get set).runFrom source =
      (fun r => (r.1, set r.2 source)) <$> d.runFrom (get source) := by
  rw [← bind_pure_comp]
  rfl

/-- What follows a computation runs on the source that the computation left, unless there was a
fault. -/
theorem runFrom_bind (d : DrawT σ m α) (f : α → DrawT σ m β) (source : σ) :
    (d >>= f).runFrom source = d.runFrom source >>= fun r =>
      match r.1 with
      | .ok a => (f a).runFrom r.2
      | .error fault => pure (.error fault, r.2) := by
  refine bind_congr fun r => ?_
  rcases r with ⟨_ | _, _⟩ <;> rfl

theorem runFrom_map [LawfulMonad m] (f : α → β) (d : DrawT σ m α) (source : σ) :
    (f <$> d).runFrom source = (fun r => (r.1.map f, r.2)) <$> d.runFrom source := by
  rw [← bind_pure_comp, runFrom_bind, ← bind_pure_comp]
  refine bind_congr fun r => ?_
  rcases r with ⟨_ | _, _⟩ <;> rfl

theorem map_ask [LawfulMonad m] (f : α → β) (x : m α) :
    f <$> (ask x : DrawT σ m α) = ask (f <$> x) :=
  ext fun source => by
    rw [runFrom_map, runFrom_ask, runFrom_ask, Functor.map_map, Functor.map_map]
    rfl

theorem map_ofDraw [LawfulMonad m] (f : α → β) (d : Draw σ α) :
    f <$> (ofDraw d : DrawT σ m α) = ofDraw (f <$> d) :=
  ext fun source => by
    rw [runFrom_map, runFrom_ofDraw, runFrom_ofDraw, runFrom_map, map_pure]
    rfl

theorem ofDraw_bind [LawfulMonad m] (d : Draw σ α) (f : α → Draw σ β) :
    (ofDraw (d >>= f) : DrawT σ m β) = ofDraw d >>= fun a => ofDraw (f a) :=
  ext fun source => by
    rw [runFrom_bind, runFrom_ofDraw, runFrom_ofDraw, pure_bind, runFrom_bind]
    rcases d.runFrom source with ⟨_ | a, rest⟩ <;> rfl

/-- After a draw that was answered, what follows runs from the source that it left. -/
theorem runFrom_bind_of_ok {d : Draw σ α} {f : α → Draw σ β} {a : α} {source rest : σ}
    (h : d.runFrom source = (.ok a, rest)) : (d >>= f).runFrom source = (f a).runFrom rest := by
  rw [runFrom_bind, h]
  rfl

theorem runFrom_map_of_ok {d : Draw σ α} {a : α} {source rest : σ} (f : α → β)
    (h : d.runFrom source = (.ok a, rest)) : (f <$> d).runFrom source = (.ok (f a), rest) := by
  rw [runFrom_map, h]
  rfl

/-- After a fault nothing follows. -/
theorem runFrom_bind_of_error {d : Draw σ α} (f : α → Draw σ β) {fault : Fault} {source rest : σ}
    (h : d.runFrom source = (.error fault, rest)) :
    (d >>= f).runFrom source = (.error fault, rest) := by
  rw [runFrom_bind, h]
  rfl

theorem runFrom_map_eq_error_iff {d : Draw σ α} {f : α → β} {fault : Fault} {source rest : σ} :
    (f <$> d).runFrom source = (.error fault, rest) ↔
      d.runFrom source = (.error fault, rest) := by
  rw [runFrom_map]
  rcases d.runFrom source with ⟨outcome, rest'⟩
  constructor
  · intro h
    cases outcome with
    | error fault' => cases h; rfl
    | ok a => cases h
  · rintro ⟨⟩
    rfl

theorem exists_of_runFrom_map {d : Draw σ α} {f : α → β} {b : β} {source rest : σ}
    (h : (f <$> d).runFrom source = (.ok b, rest)) :
    ∃ a, d.runFrom source = (.ok a, rest) ∧ f a = b := by
  rw [runFrom_map] at h
  cases hd : d.runFrom source with
  | mk outcome rest' =>
    rw [hd] at h
    cases outcome with
    | error fault => cases h
    | ok a =>
      cases h
      exact ⟨a, rfl, rfl⟩

end

end DrawT

/-- What answers the draws of the algorithms. -/
class Source (σ : Type) where
  /-- A number between `lo` and `hi`, both included. -/
  uniform (lo hi : Nat) : Draw σ Nat
  /-- An index `i`, as likely as `weights[i]` is of the sum of the weights. -/
  weighted (weights : List Float) : Draw σ Nat

/-! ## Scripted answers and recorded requests

`Script` answers from a list that was fixed beforehand, in order, whatever it is asked: its answers
are not checked against the request.  `Recorded σ` is any source that also keeps the requests it
was given, the ones that it did not survive included. -/

/-- What a source can be asked. -/
inductive Request
  /-- A number in a closed range. -/
  | uniform (lo hi : Nat)
  /-- An index by weight. -/
  | weighted (weights : List Float)
deriving DecidableEq

/-- The answers that are left of a script. -/
structure Script where
  answers : List Nat
deriving DecidableEq

namespace Script

/-- The next answer, whatever the question. -/
def next : Draw Script Nat := .ofRun fun script =>
  match script.answers with
  | [] => (.error .scriptExhausted, script)
  | answer :: rest => (.ok answer, ⟨rest⟩)

instance : Source Script where
  uniform _ _ := next
  weighted _ := next

end Script

/-- A source together with the requests made of it, the latest first. -/
structure Recorded (σ : Type) where
  source : σ
  latestFirst : List Request := []

namespace Recorded

variable {σ : Type}

/-- The requests made so far, in the order they were made. -/
def requests (r : Recorded σ) : List Request := r.latestFirst.reverse

/-- The same source with its record cleared. -/
def forget (r : Recorded σ) : Recorded σ := ⟨r.source, []⟩

/-- Note a request, then let the source answer it. -/
def serve (request : Request) (d : Draw σ Nat) : Draw (Recorded σ) Nat := .ofRun fun r =>
  let (outcome, source) := Id.run (d.runFrom r.source)
  (outcome, ⟨source, request :: r.latestFirst⟩)

instance [Source σ] : Source (Recorded σ) where
  uniform lo hi := serve (.uniform lo hi) (Source.uniform lo hi)
  weighted weights := serve (.weighted weights) (Source.weighted weights)

end Recorded

end Sortition

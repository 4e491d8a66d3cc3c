import Sortition.Session.Step

/-!
# Running a session

`Session.runSteps` takes the steps in order.  A fault is reported, and the session goes on with the
container and the source as they are, except that a fault while a container was being changed ends
it, since the container is lost.  A step that the session does not allow, such as a change of a
span, gives `none`.

A draw is *loose* if nothing can be said of it: of the source, of the order in which the container
is iterated, or of its elements, which are *murky* after a loose draw has decided which of them are
left, and in which order.  A container that is found to be empty is murky no longer.
-/

set_option autoImplicit false

namespace Sortition

namespace Session

/-- A step's report, the session after it, and whether the session ends with it. -/
structure Taken where
  report : Report
  session : Session
  ends : Bool := false

variable {J α : Type}

/-- Run a watched operation on the supply: what it came to, what the judge was shown, and the
supply. -/
def serveWatched (supply : Supply) (route : Route) (judge : J)
    (op : ∀ (σ : Type) [Source σ], DrawT σ (StateM (Watched J)) α) :
    Except Fault α × List Value × Supply :=
  let ((outcome, supply), watched) := (supply.serve route op).run { judge := judge }
  (outcome, watched.seen, supply)

/-- Nothing can be said of draws for a container. -/
def isLoose (s : Session) (slot : Slot) : Bool :=
  s.supply.isLoose || slot.container.isUnordered || slot.murky

/-! ## Picks -/

/-- Pick: what was picked, what a judge was shown, and the supply. -/
def Pick.run (supply : Supply) (route : Route) (c : Container) :
    Pick → Except Fault (Option Value) × Option (List Value) × Supply
  | .uniform =>
    let (outcome, supply) := supply.draw route fun _ => pickUniform c
    (outcome.map some, none, supply)
  | .satisfying p =>
    let (outcome, seen, supply) := serveWatched supply route p fun _ => pickIf Watched.accepts c
    (outcome, some seen, supply)
  | .weighted weights =>
    let (outcome, supply) := supply.draw route fun _ => pickWeighted weights c
    (outcome.map some, none, supply)
  | .weightedBy w =>
    let (outcome, seen, supply) :=
      serveWatched supply route w fun _ => pickWeightedBy Watched.weight c
    (outcome.map some, some seen, supply)

/-- Whether a fresh predicate accepts what was picked by it. -/
def Pick.accepted (v : Value) : Pick → Option Bool
  | .satisfying p => some (p.test v).1
  | _ => none

/-- What is reported of a pick. -/
def Pick.answer (pick : Pick) (loose : Bool) (c : Container) : Option Value → Answer
  | none => .nothing
  | some v => if loose then .picked (c.contains v) (pick.accepted v) else .value v

/-- Take a step that picks. -/
def takePick (s : Session) (slot : Slot) (route : Route) (pick : Pick) : Taken :=
  let c := slot.container
  let (outcome, seen, supply) := pick.run s.supply route c
  { report :=
      { outcome := outcome.map (pick.answer (s.isLoose slot) c)
        seen := if slot.murky then none else seen.map c.inShownOrder }
    session := { s with supply := supply } }

/-! ## Changes -/

/-- What a change did: how it went and, unless the container was lost, what became of it; and
whether chance decided on its elements. -/
structure Changed where
  outcome : Except Fault (Answer × Store)
  supply : Supply
  seen : Option (List Value) := none
  byChance : Bool := false

/-- What is reported of a trim. -/
def trimAnswer (loose : Bool) (before after : Store) : Answer :=
  if loose then
    .trimmed ((before.inShownOrder after.toList).isSublist (before.inShownOrder before.toList))
  else .nothing

/-- Change a store; `none` if this one cannot be changed so. -/
def Change.run (supply : Supply) (route : Route) (loose : Bool) (store : Store) :
    Change → Option Changed
  | .trim k =>
    let (outcome, supply) := supply.draw route fun _ => Sortition.trim k store
    some
      { outcome := outcome.map fun after => (trimAnswer loose store after, after)
        supply := supply
        byChance := 0 < k && k < store.size }
  | .trimIf p k =>
    let (outcome, seen, supply) :=
      serveWatched supply route p fun _ => Sortition.trimIf Watched.accepts k store
    some
      { outcome := outcome.map fun after => (trimAnswer loose store after, after)
        supply := supply
        seen := some seen
        byChance := 0 < k && k < p.countAccepted store.toList }
  | .shuffle => do
    let (items, rebuild) ← store.asSlice?
    let (outcome, supply) ← supply.drawEngine? route fun _ => Sortition.shuffle items
    let answer (shuffled : Array Value) : Answer :=
      if loose then .shuffled (shuffled.toList.isPerm items.toList) else .nothing
    pure
      { outcome := outcome.map fun shuffled => (answer shuffled, rebuild shuffled)
        supply := supply
        byChance := 1 < items.size }
  | .erase how p => do
    let erased ← store.removeM? how Watched.accepts
    let (after, watched) := erased.run { judge := p }
    pure { outcome := .ok (.nothing, after), supply := supply, seen := some watched.seen }
  | .add key v =>
    (store.add? key v).map fun after => { outcome := .ok (.nothing, after), supply := supply }
  | .pushFront v =>
    (store.pushFront? v).map fun after => { outcome := .ok (.nothing, after), supply := supply }
  | .popFront =>
    store.popFront?.map fun r =>
      { outcome := .ok ((r.1.map Answer.value).getD .nothing, r.2), supply := supply }
  | .rotateLeft n =>
    (store.rotateLeft? n).map fun after => { outcome := .ok (.nothing, after), supply := supply }
  | .look => some { outcome := .ok (.nothing, store), supply := supply }

/-- How a store looks, which may be murky. -/
def storeView (murky : Bool) (store : Store) : View :=
  .store store.size (if murky then none else some (store.inShownOrder store.toList))

/-- Take a step that changes a store. -/
def takeChange (s : Session) (i : Nat) (slot : Slot) (store : Store) (route : Route)
    (change : Change) : Option Taken := do
  let loose := s.isLoose slot
  let changed ← change.run s.supply route loose store
  let seen := if slot.murky then none else changed.seen.map store.inShownOrder
  let session := { s with supply := changed.supply }
  match changed.outcome with
  | .error fault => pure ⟨{ outcome := .error fault, seen := seen }, session, true⟩
  | .ok (answer, after) =>
    let murky := (slot.murky || (loose && changed.byChance)) && after.size != 0
    let (trace, after) := after.takeTrace
    pure
      { report :=
          { outcome := .ok answer
            seen := seen
            view := some (storeView murky after)
            trace := if slot.murky || murky then none else trace }
        session := { session with slots := s.slots.set i ⟨.store after, murky⟩ } }

/-- Take a step that looks at a span; nothing else can be done to one. -/
def takeLook (s : Session) (span : Span) : Change → Option Taken
  | .look =>
    some { report := { outcome := .ok .nothing, view := some (.span span.size) }, session := s }
  | _ => none

/-! ## Draws and dealers -/

/-- Draw from the supply directly; `none` if it is no engine and an engine is needed. -/
def DirectDraw.run (supply : Supply) : DirectDraw → Option (Except Fault Answer × Supply)
  | .uniform lo hi =>
    let (outcome, supply) := supply.draw .source fun _ => Source.uniform lo hi
    some (outcome.map .number, supply)
  | .weighted weights =>
    let (outcome, supply) := supply.draw .source fun _ => Source.weighted weights
    some (outcome.map .number, supply)
  | .nextU32 => do
    let (outcome, supply) ← supply.drawEngine? .source fun _ => Engine.nextU32
    pure (outcome.map fun w => .number w.toNat, supply)
  | .nextU64 => do
    let (outcome, supply) ← supply.drawEngine? .source fun _ => Engine.nextU64
    pure (outcome.map fun w => .number w.toNat, supply)
  | .fill n => do
    let (outcome, supply) ← supply.drawEngine? .source fun _ => Engine.fill n
    pure (outcome.map .bytes, supply)

/-- The seed of a dealer, if it has one. -/
def seedAnswer (d : Dealer ChaCha) : Answer :=
  match d.seed with
  | some seed => .number seed.toNat
  | none => .nothing

/-- The first eight words of a dealer. -/
def firstWords (d : Dealer ChaCha) : Option (List UInt64) :=
  (Id.run ((drawMany Engine.nextU64 8).runFrom d)).1.toOption

/-- Do something with the dealer. -/
def takeMove (s : Session) (d : Dealer ChaCha) : DealerMove → Option (Answer × Session)
  | .seed => some (seedAnswer d, s)
  | .reseed seed => some (.number seed.toNat, { s with supply := .dealer (d.withSeed seed) })
  | .save =>
    let saved := s.saved ++ [d.copyWith s.freshEntropy]
    some (.number saved.length, { s with saved := saved, freshEntropy := s.freshEntropy + 1 })
  | .swap i => do
    let other ← s.saved[i]?
    pure (seedAnswer other, { s with supply := .dealer other, saved := s.saved.set i d })
  | .sameDraws =>
    let one := d.copyWith s.freshEntropy
    let other := d.copyWith (s.freshEntropy + 1)
    some (.flag (firstWords one == firstWords other), { s with freshEntropy := s.freshEntropy + 2 })

/-! ## Sessions -/

/-- Take a step, whatever it is. -/
def Step.take (s : Session) : Step → Option Taken
  | .pick i route how => do
    let slot ← s.slots[i]?
    pure (s.takePick slot route how)
  | .change i route what => do
    let slot ← s.slots[i]?
    match slot.container with
    | .store store => s.takeChange i slot store route what
    | .span span => s.takeLook span what
  | .draw d => do
    let (outcome, supply) ← d.run s.supply
    pure { report := { outcome := outcome }, session := { s with supply := supply } }
  | .dealer move => do
    let (answer, next) ← s.takeMove (← s.supply.dealer?) move
    pure { report := { outcome := .ok answer }, session := next }

/-- Take a step and add to its report what was asked of the source. -/
def takeStep (s : Session) (step : Step) : Option Taken := do
  let taken ← step.take s
  let (requests, supply) := taken.session.supply.takeRequests
  pure
    { taken with
      report := { taken.report with requests := requests, wordsUsed := supply.wordsUsed? }
      session := { taken.session with supply := supply } }

/-- Take steps in order: their reports, and whether a step ended the session. -/
def runSteps (s : Session) : List Step → Option (List Report × Bool)
  | [] => some ([], false)
  | step :: steps => do
    let taken ← s.takeStep step
    if taken.ends then pure ([taken.report], true)
    else
      let (reports, ended) ← taken.session.runSteps steps
      pure (taken.report :: reports, ended)

end Session

end Sortition

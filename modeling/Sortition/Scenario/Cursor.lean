import Sortition.Cursor
import Sortition.Value

/-!
# Scenarios for the output cursor

A run of writes into a buffer that starts as copies of one value, with what the cursor shows after
each of them.  At the end the filled slots are given back and, where the scenario has edits, first
reversed and then overwritten slot by slot; the whole buffer is shown after that.
-/

set_option autoImplicit false

namespace Sortition

namespace CursorScenario

/-- One write, or the write of a list. -/
inductive Step
  | write (item : Value)
  | writeAll (items : List Value)

end CursorScenario

/-- A buffer of copies of one value, writes into it, and edits of what was written. -/
structure CursorScenario where
  capacity : Nat
  fill : Value
  steps : List CursorScenario.Step
  edits : Option (List (Nat × Value))

namespace CursorScenario

/-- What a step came to. -/
inductive Outcome
  /-- The item was written. -/
  | written
  /-- So many items were written. -/
  | count (n : Nat)
  /-- The buffer was full. -/
  | refused (e : OutOfBounds)

/-- What a step came to, and what the cursor shows after it. -/
structure Report where
  outcome : Outcome
  pulled : Nat
  after : Cursor Value

/-- What a scenario came to. -/
structure Result where
  reports : List Report
  /-- The filled slots, as they were given back. -/
  intoWritten : List Value
  /-- The whole buffer, after the edits. -/
  buffer : List Value

/-- Take one step. -/
def Step.run (c : Cursor Value) : Step → Report
  | .write item =>
    match c.write item with
    | .ok next => ⟨.written, 0, next⟩
    | .error e => ⟨.refused e, 0, c⟩
  | .writeAll items =>
    let poured := c.writeAll items
    match poured.outcome with
    | .ok n => ⟨.count n, poured.pulled, poured.cursor⟩
    | .error e => ⟨.refused e, poured.pulled, poured.cursor⟩

/-- Take the steps in order: the report of each, and the cursor at the end. -/
def runSteps (c : Cursor Value) : List Step → List Report × Cursor Value
  | [] => ([], c)
  | step :: steps =>
    let report := step.run c
    let (reports, last) := runSteps report.after steps
    (report :: reports, last)

/-- Overwrite open slots one after the other; `none` if one is not open. -/
def overwrite (f : Filled Value) : List (Nat × Value) → Option (Filled Value)
  | [] => some f
  | (i, item) :: edits => if h : i < f.size then overwrite (f.set i item h) edits else none

/-- Run a scenario; `none` if it edits a slot that was not written. -/
def run (s : CursorScenario) : Option Result :=
  let (reports, last) := runSteps (.ofBuffer (Array.replicate s.capacity s.fill)) s.steps
  let filled := last.intoWritten
  let edited := match s.edits with
    | none => some filled
    | some edits => overwrite filled.reverse edits
  edited.map fun e => ⟨reports, filled.toList, e.buffer.toList⟩

end CursorScenario

end Sortition

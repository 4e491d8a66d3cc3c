import Sortition.Keyed.Operations
import Sortition.Scenario.Multimap

/-!
# Scenarios for lookups

A run of lookups in a map and of writes through it, with the whole map after each of them, addresses
followed.  The map holds values, boxes, or references to cells; what holds shared references, or
boxed text, can only be read.
-/

set_option autoImplicit false

namespace Sortition

namespace LookupScenario

/-- What a map holds under its keys. -/
inductive Store
  /-- The values themselves. -/
  | values (entries : List (Value × Value))
  /-- Boxes of values. -/
  | boxes (entries : List (Value × Value))
  /-- Boxes of text, only to be read. -/
  | texts (entries : List (Value × String))
  /-- References to cells that they may share, only to be read. -/
  | shared (cells : List Value) (entries : List (Value × Nat))
  /-- References to cells of which each has one. -/
  | exclusive (cells : List Value) (entries : List (Value × Nat))

/-- A change of a value in place. -/
inductive Edit
  /-- Put another value in its place. -/
  | set (v : Value)
  /-- Add a number to a number. -/
  | add (v : Value)
  /-- Add a value to the end of a list, or text to the end of text. -/
  | append (v : Value)

/-- The value after an edit; an edit that does not suit the value leaves it. -/
def Edit.apply : Edit → Value → Value
  | .set v, _ => v
  | .add (.int b), .int a => .int (a + b)
  | .append (.str b), .str a => .str (a ++ b)
  | .append b, .list items => .list (items ++ [b])
  | _, v => v

/-- A lookup, or a write. -/
inductive Step
  | get (key : Value)
  | write (key : Value) (edit : Edit)

end LookupScenario

/-- A map, and lookups and writes in it. -/
structure LookupScenario where
  kind : MapKind
  store : LookupScenario.Store
  steps : List LookupScenario.Step

namespace LookupScenario

/-- What a step came to. -/
inductive Outcome
  /-- The value under the key, if there is one. -/
  | found (v : Option Value)
  /-- Whether there was something to write to. -/
  | written (done : Bool)

/-- What a step came to, and the map after it. -/
structure Report where
  outcome : Outcome
  entries : List (Value × Value)

/-- What a scenario came to. -/
structure Result where
  reports : List Report
  /-- The cells at the end, if the map held exclusive references. -/
  cells : Option (List Value)

/-- A map in the course of a scenario, and the cells that it refers to. -/
inductive State (M : Type → Type)
  | values (m : M Value)
  | boxes (m : M (Boxed Value))
  | texts (m : M (Boxed String))
  | shared {n : Nat} (cells : Vector Value n) (m : M (SharedRef n))
  | exclusive {n : Nat} (cells : Vector Value n) (m : M (ExclusiveRef n))

section

variable {M : Type → Type} [KeyedMap M Value]

/-- Entries whose indices are taken as cells; `none` if one is past the last cell. -/
def entriesInto (n : Nat) : List (Value × Nat) → Option (List (Value × Fin n))
  | [] => some []
  | (key, i) :: entries =>
    if h : i < n then (entriesInto n entries).map ((key, ⟨i, h⟩) :: ·) else none

/-- The map of a store; `none` if it refers to a cell that does not exist, or twice to one that is
to be referred to once. -/
def State.ofStore : Store → Option (State M)
  | .values entries => some (.values (KeyedMap.ofList entries))
  | .boxes entries => some (.boxes (KeyedMap.ofList (entries.map fun e => (e.1, ⟨e.2⟩))))
  | .texts entries => some (.texts (KeyedMap.ofList (entries.map fun e => (e.1, ⟨e.2⟩))))
  | .shared cells entries =>
    (entriesInto cells.toArray.size entries).map fun es =>
      .shared cells.toArray.toVector (KeyedMap.ofList (es.map fun e => (e.1, ⟨e.2⟩)))
  | .exclusive cells entries =>
    if (entries.map (·.2)).Nodup then
      (entriesInto cells.toArray.size entries).map fun es =>
        .exclusive cells.toArray.toVector (KeyedMap.ofList (es.map fun e => (e.1, ⟨e.2⟩)))
    else none

/-- Look a key up. -/
def State.get : State M → Value → Option Value
  | .values m, key => valueAt? m key
  | .boxes m, key => targetAt? () m key
  | .texts m, key => (targetAt? () m key).map .str
  | .shared cells m, key => targetAt? cells m key
  | .exclusive cells m, key => targetAt? cells m key

/-- Write under a key: the state afterwards if the key is there.  The outer `none` says that the
store can only be read. -/
def State.write? (edit : Edit) : State M → Value → Option (Option (State M))
  | .values m, key => some ((modifyValueAt? edit.apply m key).map .values)
  | .boxes m, key => some ((modifyTargetAt? edit.apply () m key).map fun r => .boxes r.2)
  | .exclusive cells m, key =>
    some ((modifyTargetAt? edit.apply cells m key).map fun r => .exclusive r.1 r.2)
  | .texts _, _ => none
  | .shared _ _, _ => none

/-- All entries in ascending order of their keys, addresses followed. -/
def State.entries : State M → List (Value × Value)
  | .values m => sortedEntries m
  | .boxes m => (sortedEntries m).map fun e => (e.1, Address.read () e.2)
  | .texts m => (sortedEntries m).map fun e => (e.1, .str (Address.read () e.2))
  | .shared cells m => (sortedEntries m).map fun e => (e.1, Address.read cells e.2)
  | .exclusive cells m => (sortedEntries m).map fun e => (e.1, Address.read cells e.2)

/-- The cells that exclusive references refer to. -/
def State.cells? : State M → Option (List Value)
  | .exclusive cells _ => some cells.toList
  | _ => none

/-- Take one step; `none` if it writes to what can only be read. -/
def Step.run (s : State M) : Step → Option (Outcome × State M)
  | .get key => some (.found (s.get key), s)
  | .write key edit => (s.write? edit key).map fun
    | none => (.written false, s)
    | some next => (.written true, next)

/-- Take the steps in order. -/
def runFrom (s : State M) : List Step → Option Result
  | [] => some ⟨[], s.cells?⟩
  | step :: steps => do
    let (outcome, next) ← step.run s
    let rest ← runFrom next steps
    pure ⟨⟨outcome, next.entries⟩ :: rest.reports, rest.cells⟩

end

/-- Run a scenario on a kind of map. -/
def runOn (M : Type → Type) [KeyedMap M Value] (s : LookupScenario) : Option Result := do
  runFrom (← (State.ofStore s.store : Option (State M))) s.steps

/-- Run a scenario; `none` if it cannot be run. -/
def run (s : LookupScenario) : Option Result :=
  match s.kind with
  | .sorted => s.runOn (SortedMap Value)
  | .unordered => s.runOn (UnorderedMap Value)

end LookupScenario

end Sortition

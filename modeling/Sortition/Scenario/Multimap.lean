import Sortition.Keyed.Operations
import Sortition.Value

/-!
# Scenarios for multimaps

The kinds of maps that scenarios can ask for, and the form in which maps are shown: all entries in
ascending order of their keys, whatever order they are iterated in.

A scenario for a multimap is a run of removals of pairs, with the number of values removed and the
whole multimap after each of them.
-/

set_option autoImplicit false

namespace Sortition

/-! ## Maps in scenarios -/

/-- The kinds of maps. -/
inductive MapKind
  | sorted
  | unordered
deriving DecidableEq, Repr

/-- The entries of a map in ascending order of their keys. -/
def sortedEntries {M : Type → Type} {ν : Type} [KeyedMap M Value] (m : M ν) : List (Value × ν) :=
  (KeyedMap.entries m).mergeSort fun a b => (compare a.1 b.1).isLE

/-! ## Removals -/

/-- A multimap, and pairs to remove from it. -/
structure MultimapScenario where
  kind : MapKind
  entries : List (Value × List Value)
  removals : List (Value × Value)

namespace MultimapScenario

/-- How many values a removal took, and the multimap after it, sorted by key. -/
structure Report where
  erased : Nat
  entries : List (Value × List Value)

section

variable {M : Type → Type} [KeyedMap M Value]

/-- Make the removals in order. -/
def runFrom (m : M (Array Value)) : List (Value × Value) → List Report
  | [] => []
  | (key, value) :: removals =>
    let (erased, next) := erasePair m key value
    ⟨erased, (sortedEntries next).map fun entry => (entry.1, entry.2.toList)⟩ ::
      runFrom next removals

/-- Run a scenario on a kind of map. -/
def runOn (M : Type → Type) [KeyedMap M Value] (s : MultimapScenario) : List Report :=
  runFrom (KeyedMap.ofList (s.entries.map fun entry => (entry.1, entry.2.toArray)) : M _) s.removals

end

/-- Run a scenario. -/
def run (s : MultimapScenario) : List Report :=
  match s.kind with
  | .sorted => s.runOn (SortedMap Value)
  | .unordered => s.runOn (UnorderedMap Value)

end MultimapScenario

end Sortition

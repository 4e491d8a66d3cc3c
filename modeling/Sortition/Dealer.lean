import Sortition.Engine.Source
import Sortition.Pick
import Sortition.Shuffle
import Sortition.Trim

/-!
# Dealers

A `Dealer` owns an engine and picks, trims and shuffles with it.  The engine is started when it is
first needed: from the dealer's seed, if it has one, and otherwise from a number nobody chose, its
`entropy`.  Until then there is nothing to copy but the seed, and giving a dealer a new seed is to
forget its engine.

A dealer is an engine itself.  Its operations can so be had in two ways, as the functions of this
module, which run on the dealer's engine, and as the general functions with the dealer as the
source.
-/

set_option autoImplicit false

namespace Sortition

/-- A seed, and the engine that was started from it, if it was. -/
structure Dealer (ε : Type) where
  seed : Option UInt64
  /-- What the engine of a dealer without a seed is started from. -/
  entropy : UInt64
  engine : Option ε

namespace Dealer

variable {ε C α : Type} {m : Type → Type}

/-- A dealer without a seed. -/
def unseeded (entropy : UInt64) : Dealer ε := ⟨none, entropy, none⟩

/-- The same dealer with a seed, its draws starting anew. -/
def withSeed (d : Dealer ε) (seed : UInt64) : Dealer ε :=
  { d with seed := some seed, engine := none }

/-- A dealer with a seed. -/
def seeded (seed : UInt64) : Dealer ε := (unseeded 0).withSeed seed

/-- A copy that has its own `entropy`.  A copy of a dealer that has drawn goes on from the same
position. -/
def copyWith (d : Dealer ε) (entropy : UInt64) : Dealer ε := { d with entropy := entropy }

section

variable [Seedable ε]

/-- The engine of a dealer, started if it was not. -/
def started (d : Dealer ε) : ε :=
  match d.engine with
  | some engine => engine
  | none => Seedable.ofSeed (d.seed.getD d.entropy)

/-- Run an operation on the engine of a dealer. -/
def onEngine [Monad m] (d : DrawT ε m α) : DrawT (Dealer ε) m α :=
  d.onPart started fun engine dealer => { dealer with engine := some engine }

instance : Engine (Dealer ε) where
  nextU32 := onEngine Engine.nextU32
  nextU64 := onEngine Engine.nextU64
  fill n := onEngine (Engine.fill n)

/-- See `pickUniform`. -/
def pick [Sequence C α] (c : C) : Draw (Dealer ε) α := onEngine (pickUniform c)

/-- See `Sortition.pickIf`. -/
def pickIf [Sequence C α] [Monad m] (p : α → m Bool) (c : C) : DrawT (Dealer ε) m (Option α) :=
  onEngine (Sortition.pickIf p c)

/-- See `Sortition.pickWeighted`. -/
def pickWeighted [Sequence C α] (weights : List Float) (c : C) : Draw (Dealer ε) α :=
  onEngine (Sortition.pickWeighted weights c)

/-- See `Sortition.pickWeightedBy`. -/
def pickWeightedBy [Sequence C α] [Monad m] (weigh : α → m Float) (c : C) : DrawT (Dealer ε) m α :=
  onEngine (Sortition.pickWeightedBy weigh c)

/-- See `Sortition.trim`. -/
def trim [Erasable C α] (k : Nat) (c : C) : Draw (Dealer ε) C := onEngine (Sortition.trim k c)

/-- See `Sortition.trimIf`. -/
def trimIf [Erasable C α] [Monad m] (p : α → m Bool) (k : Nat) (c : C) : DrawT (Dealer ε) m C :=
  onEngine (Sortition.trimIf p k c)

/-- See `Sortition.shuffle`. -/
def shuffle (items : Array α) : Draw (Dealer ε) (Array α) := onEngine (Sortition.shuffle items)

end

end Dealer

end Sortition

import Sortition.Dealer
import Sortition.Engine.ChaCha

/-!
# The sources of a session

A `Supply` is one of the sources that a session can draw from.  An operation that works with every
source, or with every engine, is run on the source that the supply is.  A dealer can run it on its
own engine, as its methods do, or serve as the source itself.
-/

set_option autoImplicit false

namespace Sortition

/-- A source of draws. -/
inductive Supply
  /-- Answers fixed beforehand, whose requests are recorded. -/
  | script (s : Recorded Script)
  /-- Words fixed beforehand. -/
  | words (w : Words)
  | splitMix (s : SplitMix)
  | chaCha (c : ChaCha)
  | dealer (d : Dealer ChaCha)
  /-- A source nobody chose, so that nothing can be said of its draws. -/
  | anonymous (s : SplitMix)

/-- How a dealer takes part in an operation. -/
inductive Route
  /-- The operation runs on the dealer's engine. -/
  | method
  /-- The dealer is the source. -/
  | source
deriving DecidableEq, Repr

namespace Supply

variable {α : Type}

/-- Run an operation that works with every source. -/
def serve {m : Type → Type} [Monad m] (route : Route) (op : ∀ (σ : Type) [Source σ], DrawT σ m α) :
    Supply → m (Except Fault α × Supply)
  | script s => (fun r => (r.1, script r.2)) <$> (op (Recorded Script)).runFrom s
  | words w => (fun r => (r.1, words r.2)) <$> (op Words).runFrom w
  | splitMix s => (fun r => (r.1, splitMix r.2)) <$> (op SplitMix).runFrom s
  | chaCha c => (fun r => (r.1, chaCha r.2)) <$> (op ChaCha).runFrom c
  | dealer d => (fun r => (r.1, dealer r.2)) <$>
      match route with
      | .method => (Dealer.onEngine (op ChaCha)).runFrom d
      | .source => (op (Dealer ChaCha)).runFrom d
  | anonymous s => (fun r => (r.1, anonymous r.2)) <$> (op SplitMix).runFrom s

/-- Run an operation that works with every engine; `none` if the supply is not one. -/
def serveEngine? {m : Type → Type} [Monad m] (route : Route)
    (op : ∀ (σ : Type) [Engine σ], DrawT σ m α) : Supply → Option (m (Except Fault α × Supply))
  | script _ => none
  | words w => some ((fun r => (r.1, words r.2)) <$> (op Words).runFrom w)
  | splitMix s => some ((fun r => (r.1, splitMix r.2)) <$> (op SplitMix).runFrom s)
  | chaCha c => some ((fun r => (r.1, chaCha r.2)) <$> (op ChaCha).runFrom c)
  | dealer d => some ((fun r => (r.1, dealer r.2)) <$>
      match route with
      | .method => (Dealer.onEngine (op ChaCha)).runFrom d
      | .source => (op (Dealer ChaCha)).runFrom d)
  | anonymous s => some ((fun r => (r.1, anonymous r.2)) <$> (op SplitMix).runFrom s)

/-- Make a draw that works with every source. -/
def draw (supply : Supply) (route : Route) (op : ∀ (σ : Type) [Source σ], Draw σ α) :
    Except Fault α × Supply :=
  Id.run (supply.serve route op)

/-- Make a draw that works with every engine; `none` if the supply is not one. -/
def drawEngine? (supply : Supply) (route : Route) (op : ∀ (σ : Type) [Engine σ], Draw σ α) :
    Option (Except Fault α × Supply) :=
  (supply.serveEngine? route op).map Id.run

/-- Nothing can be said of the draws: nobody chose the source, or its seed. -/
def isLoose : Supply → Bool
  | anonymous _ => true
  | dealer d => d.seed.isNone
  | _ => false

/-- The dealer that the supply is. -/
def dealer? : Supply → Option (Dealer ChaCha)
  | dealer d => some d
  | _ => none

/-- The requests that a script has recorded, and the supply with its record cleared. -/
def takeRequests : Supply → Option (List Request) × Supply
  | script s => (some s.requests, script s.forget)
  | s => (none, s)

/-- How many of the given words have been used. -/
def wordsUsed? : Supply → Option Nat
  | words w => some w.used
  | _ => none

end Supply

end Sortition

import Sortition.Session.Store
import Sortition.Session.Supply
import Sortition.Session.Judge

/-!
# The steps of a session, and what is reported of them

A step picks from a container, changes a container, draws from the supply directly, or deals with
the dealer that the supply is.  Its report says what it came to and, depending on the step, what a
predicate was shown, how the container looks afterwards, which changes its storage has noted, and
what was asked of the source.

What depends on draws of which nothing can be said is not reported but judged: whether a pick is an
element of the container, whether what was left was there before, whether a shuffle is a
rearrangement.
-/

set_option autoImplicit false

namespace Sortition

namespace Session

/-- The ways to pick. -/
inductive Pick
  | uniform
  | satisfying (p : Predicate)
  | weighted (weights : List Float)
  | weightedBy (w : Weighing)

/-- The changes of a container, and the look at it. -/
inductive Change
  | trim (k : Nat)
  | trimIf (p : Predicate) (k : Nat)
  | shuffle
  | erase (how : Removal) (p : Predicate)
  | add (key : Option Value) (v : Value)
  | pushFront (v : Value)
  | popFront
  | rotateLeft (n : Nat)
  | look

/-- Draws from the supply itself. -/
inductive DirectDraw
  | uniform (lo hi : Nat)
  | weighted (weights : List Float)
  | nextU32
  | nextU64
  | fill (n : Nat)

/-- What can be done with a dealer, and with the copies of it that were put aside. -/
inductive DealerMove
  /-- Ask for the seed. -/
  | seed
  /-- Give the dealer a seed. -/
  | reseed (seed : UInt64)
  /-- Put a copy aside. -/
  | save
  /-- Exchange the dealer with one that was put aside. -/
  | swap (i : Nat)
  /-- Compare the draws of two copies. -/
  | sameDraws

/-- A step of a session. -/
inductive Step
  | pick (container : Nat) (route : Route) (pick : Pick)
  | change (container : Nat) (route : Route) (change : Change)
  | draw (d : DirectDraw)
  | dealer (move : DealerMove)

/-- What a step came to, if it did not stop with a fault. -/
inductive Answer
  | nothing
  | value (v : Value)
  | number (n : Nat)
  | bytes (bs : List UInt8)
  | flag (b : Bool)
  /-- A pick of which nothing can be said: whether it is an element, and whether a fresh predicate
  accepts it. -/
  | picked (member : Bool) (accepted : Option Bool)
  /-- A trim of which nothing can be said: whether what is left was there before, in that order. -/
  | trimmed (drawnFromBefore : Bool)
  /-- A shuffle of which nothing can be said: whether the elements are the same. -/
  | shuffled (permutation : Bool)

/-- How a container looks. -/
inductive View
  | span (size : Nat)
  /-- The number of elements, and the elements, if anything can be said of them. -/
  | store (size : Nat) (items : Option (List Value))

/-- The report of a step. -/
structure Report where
  outcome : Except Fault Answer
  /-- What a predicate or a weight function was shown. -/
  seen : Option (List Value) := none
  /-- How the container looks. -/
  view : Option View := none
  /-- The changes that the storage has noted since it was last looked at. -/
  trace : Option (List Mutation) := none
  /-- What was asked of a script. -/
  requests : Option (List Request) := none
  /-- How many of the given words have been used. -/
  wordsUsed : Option Nat := none

/-- A container in the course of a session. -/
structure Slot where
  container : Container
  /-- Nothing can be said of the elements, since they were left by draws of which nothing can be
  said. -/
  murky : Bool := false

end Session

/-- A session: what it draws from, what it draws on, and the dealers put aside. -/
structure Session where
  supply : Supply
  slots : List Session.Slot
  saved : List (Dealer ChaCha) := []
  /-- A number that no dealer has been started from. -/
  freshEntropy : UInt64 := 1

end Sortition

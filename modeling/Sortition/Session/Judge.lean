import Sortition.Value

/-!
# Predicates and weight functions with a state

What an operation asks about values is a judge: a predicate or a weight function, with its memory.
Asking gives the answer and the judge as it is afterwards.

* A `Predicate` is an expression whose nodes may remember what they were asked.
* A `Weighing` gives a value its weight and may count the values it was shown.
* `Watched J` is a judge and the values that it was shown.  An operation that asks the judge runs
  over `StateM (Watched J)`, and what the judge was shown is known even if the operation stops with
  a fault.
-/

set_option autoImplicit false

namespace Sortition

/-! ## Predicates

`calls` answers from a list in turn, and `dup` recognises values that it was asked about before.
The memory is part of the expression.  `and` and `or` ask their second part only if the first leaves
the answer open, and what is not asked remembers nothing. -/

/-- Conditions on values, together with what they remember. -/
inductive Predicate
  /-- Always the same answer. -/
  | const (answer : Bool)
  /-- The value comes before another. -/
  | before (bound : Value)
  /-- The value comes after another. -/
  | after (bound : Value)
  /-- The value equals another. -/
  | equals (v : Value)
  /-- The value equals one of several. -/
  | oneOf (vs : List Value)
  /-- The value is an integer with a given non-negative remainder. -/
  | remainder (modulus residue : Int)
  /-- The value is a string or a list of more than so many parts. -/
  | longerThan (n : Nat)
  /-- The value is a list with an item at a position, and the item satisfies a condition. -/
  | itemAt (i : Nat) (p : Predicate)
  | not (p : Predicate)
  | and (p q : Predicate)
  | or (p q : Predicate)
  /-- Answers in turn from a list, over and over, after `asked` questions. -/
  | calls (answers : List Bool) (asked : Nat)
  /-- The value equals one that was asked about before. -/
  | dup (seen : List Value)

/-- The element of a list that is reached by going round it. -/
def cyclic? {α : Type} (items : List α) (i : Nat) : Option α := items[i % items.length]?

namespace Predicate

/-- Ask about a value: the answer, and the predicate with what it remembers. -/
def test (v : Value) : Predicate → Bool × Predicate
  | const answer => (answer, const answer)
  | before bound => ((compare v bound).isLT, before bound)
  | after bound => ((compare v bound).isGT, after bound)
  | equals other => (v == other, equals other)
  | oneOf others => (others.any (v == ·), oneOf others)
  | remainder modulus residue =>
    let answer := match v with
      | .int i => i % modulus == residue
      | _ => false
    (answer, remainder modulus residue)
  | longerThan n =>
    let answer := match v with
      | .str s => n < s.length
      | .list items => n < items.length
      | _ => false
    (answer, longerThan n)
  | itemAt i p =>
    match v with
    | .list items =>
      match items[i]? with
      | some item =>
        let (answer, p) := test item p
        (answer, itemAt i p)
      | none => (false, itemAt i p)
    | _ => (false, itemAt i p)
  | not p =>
    let (answer, p) := test v p
    (!answer, not p)
  | and p q =>
    let (first, p) := test v p
    if first then
      let (second, q) := test v q
      (second, and p q)
    else (false, and p q)
  | or p q =>
    let (first, p) := test v p
    if first then (true, or p q)
    else
      let (second, q) := test v q
      (second, or p q)
  | calls answers asked => ((cyclic? answers asked).getD false, calls answers (asked + 1))
  | dup seen => if seen.any (v == ·) then (true, dup seen) else (false, dup (v :: seen))

/-- How many values of a list the predicate accepts, asked about them in order. -/
def countAccepted : Predicate → List Value → Nat
  | _, [] => 0
  | p, v :: vs =>
    let (answer, p) := p.test v
    (if answer then 1 else 0) + p.countAccepted vs

end Predicate

/-! ## Weight functions -/

/-- Ways to weigh a value, together with what they remember. -/
inductive Weighing
  /-- Always the same weight. -/
  | const (weight : Float)
  /-- Weights in turn from a list, over and over, after `asked` questions. -/
  | calls (weights : List Float) (asked : Nat)
  /-- The number itself, or the length of a string or a list. -/
  | magnitude
  /-- The weight of the item at a position of a list; nothing if there is none. -/
  | itemAt (i : Nat) (w : Weighing)

/-- The size of a value as a number. -/
def Value.magnitude : Value → Float
  | .int i => Float.ofInt i
  | .float x => x
  | .str s => Float.ofNat s.length
  | .list items => Float.ofNat items.length

namespace Weighing

/-- Weigh a value: the weight, and the function with what it remembers. -/
def weigh (v : Value) : Weighing → Float × Weighing
  | const weight => (weight, const weight)
  | calls weights asked => ((cyclic? weights asked).getD 0.0, calls weights (asked + 1))
  | magnitude => (v.magnitude, magnitude)
  | itemAt i w =>
    match v with
    | .list items =>
      match items[i]? with
      | some item =>
        let (weight, w) := weigh item w
        (weight, itemAt i w)
      | none => (0.0, itemAt i w)
    | _ => (0.0, itemAt i w)

end Weighing

/-! ## Watching a judge -/

/-- A judge and the values that it was shown, the latest first. -/
structure Watched (J : Type) where
  judge : J
  latestFirst : List Value := []

namespace Watched

variable {J β : Type}

/-- The values that the judge was shown, in order. -/
def seen (w : Watched J) : List Value := w.latestFirst.reverse

/-- Show the judge a value. -/
def ask (f : Value → J → β × J) (v : Value) : StateM (Watched J) β := fun w =>
  let (answer, judge) := f v w.judge
  (answer, ⟨judge, v :: w.latestFirst⟩)

/-- Ask a watched predicate. -/
def accepts : Value → StateM (Watched Predicate) Bool := ask Predicate.test

/-- Ask a watched weight function. -/
def weight : Value → StateM (Watched Weighing) Float := ask Weighing.weigh

end Watched

end Sortition

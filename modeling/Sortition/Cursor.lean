/-!
# An output cursor that checks its bounds

A `Cursor` writes into a buffer of a fixed number of slots, one slot after the other from the front,
and refuses to go past the end: a write into a full buffer is the error `OutOfBounds`, and leaves
everything as it was.

* `Cursor.write` fills one slot;
* `Cursor.writeAll` takes items from a stream until the stream ends or an item does not fit.  The
  room left bounds the recursion, so the stream may be endless.  `Poured` says what came of it,
  how many items were pulled, the refused one among them, and what is left of the stream;
* `Cursor.intoWritten` gives back the filled slots as a `Filled`, which can be edited in place.  The
  slots behind them are part of it and out of its reach.
-/

set_option autoImplicit false

namespace Sortition

variable {α ρ : Type}

/-- The error of a write into a full buffer. -/
structure OutOfBounds where
  /-- The number of slots of the buffer. -/
  capacity : Nat
deriving DecidableEq, Repr

/-- The wording of the error. -/
def OutOfBounds.message (e : OutOfBounds) : String :=
  "index out of range: output buffer of capacity " ++ toString e.capacity ++ " is full"

/-- A buffer and the number of its slots that have been written. -/
structure Cursor (α : Type) where
  buffer : Array α
  position : Nat
  position_le : position ≤ buffer.size

/-- What came of writing the items of a stream. -/
structure Poured (ρ α : Type) where
  /-- The cursor afterwards. -/
  cursor : Cursor α
  /-- The number of items written, if all were. -/
  outcome : Except OutOfBounds Nat
  /-- The number of items taken from the stream. -/
  pulled : Nat
  /-- What is left of the stream. -/
  rest : ρ

/-- A buffer of which the first `size` slots are open to edits. -/
structure Filled (α : Type) where
  buffer : Array α
  size : Nat
  size_le : size ≤ buffer.size

namespace Cursor

/-- A cursor at the first slot of a buffer. -/
def ofBuffer (buffer : Array α) : Cursor α := ⟨buffer, 0, Nat.zero_le _⟩

/-- The number of slots. -/
def capacity (c : Cursor α) : Nat := c.buffer.size

/-- The number of slots still to be written. -/
def remaining (c : Cursor α) : Nat := c.buffer.size - c.position

/-- No slot is left. -/
def isFull (c : Cursor α) : Bool := c.position == c.buffer.size

/-- The items written, in order. -/
def written (c : Cursor α) : List α := c.buffer.toList.take c.position

/-- Put an item into the next slot and advance. -/
def write (c : Cursor α) (item : α) : Except OutOfBounds (Cursor α) :=
  if h : c.position < c.buffer.size then
    .ok ⟨c.buffer.set c.position item, c.position + 1, by rw [Array.size_set]; exact h⟩
  else
    .error ⟨c.capacity⟩

theorem remaining_lt_of_write {c next : Cursor α} {item : α} (h : c.write item = .ok next) :
    next.remaining < c.remaining := by
  rw [write] at h
  split at h
  · obtain rfl := Except.ok.inj h
    simp only [remaining, Array.size_set]
    omega
  · exact nomatch h

/-- Write the items of a stream, up to the first that does not fit.  That one is pulled from the
stream and lost. -/
def writeAll [Std.Stream ρ α] (c : Cursor α) (items : ρ) : Poured ρ α :=
  match Std.Stream.next? items with
  | none => ⟨c, .ok 0, 0, items⟩
  | some (item, rest) =>
    match h : c.write item with
    | .error e => ⟨c, .error e, 1, rest⟩
    | .ok next =>
      have := remaining_lt_of_write h
      let poured := next.writeAll rest
      ⟨poured.cursor, poured.outcome.map (· + 1), poured.pulled + 1, poured.rest⟩
termination_by c.remaining

/-- The filled slots, with the buffer they belong to. -/
def intoWritten (c : Cursor α) : Filled α := ⟨c.buffer, c.position, c.position_le⟩

end Cursor

namespace Filled

/-- The items of the open slots. -/
def toList (f : Filled α) : List α := f.buffer.toList.take f.size

/-- Replace the item of an open slot. -/
def set (f : Filled α) (i : Nat) (item : α) (h : i < f.size) : Filled α :=
  ⟨f.buffer.set i item (Nat.lt_of_lt_of_le h f.size_le), f.size, by simpa using f.size_le⟩

/-- Exchange the items of two open slots. -/
def swap (f : Filled α) (i j : Nat) (hi : i < f.size) (hj : j < f.size) : Filled α :=
  ⟨f.buffer.swap i j (Nat.lt_of_lt_of_le hi f.size_le) (Nat.lt_of_lt_of_le hj f.size_le), f.size,
    by simpa using f.size_le⟩

/-- Exchange each of the first `n` open slots with the slot as far from the other end, the
innermost pair first. -/
def mirror (f : Filled α) : (n : Nat) → n ≤ f.size / 2 → Filled α
  | 0, _ => f
  | n + 1, h => (f.swap n (f.size - 1 - n) (by omega) (by omega)).mirror n (by
      show n ≤ f.size / 2
      omega)

/-- Reverse the order of the open slots. -/
def reverse (f : Filled α) : Filled α := f.mirror (f.size / 2) (Nat.le_refl _)

end Filled

end Sortition

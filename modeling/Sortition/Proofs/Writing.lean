import Mathlib
import Sortition.Cursor

/-!
# Cursors in the course of many writes

A cursor is written to item by item and in bulk, in any order, and also after it has refused an
item.  A bulk write that meets the end of the buffer leaves the items that did fit, and it has taken
one more from its stream.  So what a cursor holds depends on how far every call got.

All of it comes down to single items.

* `Cursor.put` is what a write makes of a cursor, refused or not.
* `Cursor.writeAll_eq` says of a bulk write that it takes as many items from its stream as there is
  room for, and one more, as far as the stream has them, and puts them into the cursor in turn.
* `Cursor.Holds buffer items c` says what a cursor looks like after the items have been put into a
  buffer; `Holds.put` is the step, and `holds_run` follows by induction on the calls.
* `Filled.Edited` is what edits can make of the slots that are given back.
* `cursor_run` is the main statement.
-/

set_option autoImplicit false

namespace Sortition

variable {α ρ : Type}

namespace Cursor

/-! ## One item -/

/-- The cursor after a write, which is the same cursor if the item was refused. -/
def put (c : Cursor α) (item : α) : Cursor α :=
  match c.write item with
  | .ok next => next
  | .error _ => c

theorem isFull_iff (c : Cursor α) : c.isFull = true ↔ c.position = c.buffer.size := by
  rw [isFull, beq_iff_eq]

/-- **A write is refused if and only if the cursor is full**, and the error names the capacity. -/
theorem write_eq_error_iff (c : Cursor α) (item : α) (e : OutOfBounds) :
    c.write item = .error e ↔ c.isFull = true ∧ e = ⟨c.buffer.size⟩ := by
  have hle := c.position_le
  rw [isFull_iff, write]
  by_cases h : c.position < c.buffer.size
  · rw [dif_pos h]
    constructor
    · intro heq
      cases heq
    · rintro ⟨hfull, -⟩
      omega
  · rw [dif_neg h, Except.error.injEq]
    constructor
    · intro heq
      exact ⟨by omega, heq.symm⟩
    · rintro ⟨-, rfl⟩
      rfl

theorem put_of_isFull {c : Cursor α} (h : c.isFull = true) (item : α) : c.put item = c := by
  have hwrite : c.write item = .error ⟨c.buffer.size⟩ := (write_eq_error_iff c item _).2 ⟨h, rfl⟩
  rw [put, hwrite]

/-- What a cursor looks like when items have been put into a buffer one after the other: as many as
there is room for are in the first slots, and the other slots are as they were. -/
structure Holds (buffer : Array α) (items : List α) (c : Cursor α) : Prop where
  position_eq : c.position = min buffer.size items.length
  buffer_eq : c.buffer.toList = items.take buffer.size ++ buffer.toList.drop items.length

theorem holds_ofBuffer (buffer : Array α) : Holds buffer [] (ofBuffer buffer) where
  position_eq := (Nat.min_zero _).symm
  buffer_eq := by rw [List.take_nil]; rfl

namespace Holds

variable {buffer : Array α} {items : List α} {c : Cursor α}

theorem size_eq (h : Holds buffer items c) : c.buffer.size = buffer.size := by
  have hlength := congrArg List.length h.buffer_eq
  simp only [Array.length_toList, List.length_append, List.length_take, List.length_drop]
    at hlength
  omega

/-- **One more item is put.** -/
theorem put (h : Holds buffer items c) (item : α) :
    Holds buffer (items ++ [item]) (c.put item) := by
  have hposition := h.position_eq
  have hsize := h.size_eq
  by_cases hroom : c.position < c.buffer.size
  · -- the item goes into the first slot that is as it was
    have hlt : items.length < buffer.size := by omega
    have hput : c.put item =
        ⟨c.buffer.set c.position item, c.position + 1, by rw [Array.size_set]; exact hroom⟩ := by
      rw [Cursor.put, write, dif_pos hroom]
    have hbuffer : c.buffer.toList = items ++ buffer.toList.drop items.length := by
      have hle : items.length ≤ buffer.size := by omega
      rw [h.buffer_eq, List.take_of_length_le hle]
    rw [hput]
    refine ⟨?_, ?_⟩
    · rw [List.length_append, List.length_singleton]
      show c.position + 1 = _
      omega
    · have heq : c.position = items.length := by omega
      rw [Array.toList_set, hbuffer, heq, List.drop_eq_getElem_cons (by rwa [Array.length_toList]),
        List.set_append_right _ _ (Nat.le_refl _), Nat.sub_self, List.set_cons_zero,
        List.take_of_length_le (by rw [List.length_append, List.length_singleton]; omega),
        List.append_assoc, List.length_append, List.singleton_append, List.length_singleton]
  · have hfull : c.isFull = true := (isFull_iff c).2 (by have := c.position_le; omega)
    rw [put_of_isFull hfull]
    refine ⟨?_, ?_⟩
    · rw [List.length_append]
      omega
    · have hdrop : ∀ n, buffer.size ≤ n → buffer.toList.drop n = [] := fun n hn =>
        List.drop_eq_nil_of_le (by rwa [Array.length_toList])
      rw [h.buffer_eq, List.take_append_of_le_length (by omega), hdrop _ (by omega),
        hdrop _ (by rw [List.length_append]; omega)]

theorem foldl_put (h : Holds buffer items c) (more : List α) :
    Holds buffer (items ++ more) (more.foldl Cursor.put c) := by
  induction more generalizing items c with
  | nil => rwa [List.append_nil]
  | cons item more ih =>
    have hnext := ih (h.put item)
    rwa [List.append_assoc, List.singleton_append] at hnext

theorem written_eq (h : Holds buffer items c) : c.written = items.take buffer.size := by
  have hlength : (items.take buffer.size).length = c.position := by
    rw [List.length_take, h.position_eq]
  rw [written, h.buffer_eq, ← hlength, List.take_left]

/-- Behind what has been written, the buffer is as it was. -/
theorem drop_eq (h : Holds buffer items c) :
    c.buffer.toList.drop c.position = buffer.toList.drop c.position := by
  have hlength : (items.take buffer.size).length = c.position := by
    rw [List.length_take, h.position_eq]
  rw [h.buffer_eq, ← hlength, List.drop_left, List.length_take]
  by_cases hle : items.length ≤ buffer.size
  · rw [Nat.min_eq_right hle]
  · rw [Nat.min_eq_left (by omega), List.drop_eq_nil_of_le (by rw [Array.length_toList]; omega),
      List.drop_eq_nil_of_le (by rw [Array.length_toList])]

end Holds

/-! ## Many items at once -/

theorem remaining_of_write {c next : Cursor α} {item : α} (h : c.write item = .ok next) :
    c.remaining = next.remaining + 1 ∧ next.buffer.size = c.buffer.size := by
  rw [write] at h
  split at h
  · obtain rfl := Except.ok.inj h
    rename_i hlt
    refine ⟨?_, Array.size_set hlt⟩
    show c.buffer.size - c.position = (c.buffer.set c.position item).size - (c.position + 1) + 1
    rw [Array.size_set]
    omega
  · cases h

section

variable [Std.Stream ρ α]

theorem take_succ_of_next {items rest : ρ} {item : α}
    (h : Std.Stream.next? items = some (item, rest)) (n : Nat) :
    Std.Stream.take items (n + 1) =
      (item :: (Std.Stream.take rest n).1, (Std.Stream.take rest n).2) := by
  rw [Std.Stream.take, h]

/-- **A bulk write puts the items of its stream into the cursor one after the other.**  It takes as
many as there is room for, and one more, as far as the stream has them, and it fails if there is one
more. -/
theorem writeAll_eq (c : Cursor α) (items : ρ) :
    let taken := Std.Stream.take items (c.remaining + 1)
    c.writeAll items =
      ⟨taken.1.foldl put c,
        if taken.1.length ≤ c.remaining then .ok taken.1.length else .error ⟨c.buffer.size⟩,
        taken.1.length, taken.2⟩ := by
  fun_induction writeAll c items with
  | case1 c items hnext => simp [Std.Stream.take, hnext]
  | case2 c items item rest hnext e hwrite =>
    obtain ⟨hfull, rfl⟩ := (write_eq_error_iff c item e).1 hwrite
    have hremaining : c.remaining = 0 := by
      rw [remaining, (isFull_iff c).1 hfull, Nat.sub_self]
    simp [Std.Stream.take, hnext, hremaining, put_of_isFull hfull]
  | case3 c items item rest hnext next hwrite _ poured ih =>
    have hput : c.put item = next := by rw [put, hwrite]
    obtain ⟨hremaining, hsize⟩ := remaining_of_write hwrite
    simp only [poured, ih, hremaining, ← hsize, take_succ_of_next hnext]
    generalize Std.Stream.take rest (next.remaining + 1) = taken
    simp only [List.foldl_cons, hput, List.length_cons, Nat.add_le_add_iff_right]
    split <;> rfl

/-- Taking as many items from a stream as it has takes the same again. -/
theorem take_length_take (items : ρ) (n : Nat) :
    Std.Stream.take items (Std.Stream.take items n).1.length = Std.Stream.take items n := by
  induction n generalizing items with
  | zero => rfl
  | succ n ih =>
    cases hnext : Std.Stream.next? items with
    | none => simp [Std.Stream.take, hnext]
    | some next =>
      rw [take_succ_of_next hnext, List.length_cons, take_succ_of_next hnext, ih]

/-- The number that a bulk write gives is that of the items that are gone from its stream. -/
theorem take_pulled (c : Cursor α) (items : ρ) :
    Std.Stream.take items (c.writeAll items).pulled =
      Std.Stream.take items (c.remaining + 1) := by
  rw [writeAll_eq]
  exact take_length_take items _

end

/-! ## Calls in turn -/

/-- A call of a cursor.  What a bulk write takes its items from can be of any kind, and endless. -/
inductive Call (α : Type) : Type 1
  | write (item : α)
  | writeAll {ρ : Type} [Std.Stream ρ α] (items : ρ)

namespace Call

/-- The cursor after a call. -/
def after (c : Cursor α) : Call α → Cursor α
  | write item => c.put item
  | writeAll items => (c.writeAll items).cursor

/-- What a call fails with, if it fails. -/
def error? (c : Cursor α) : Call α → Option OutOfBounds
  | write item =>
    match c.write item with
    | .ok _ => none
    | .error e => some e
  | writeAll items =>
    match (c.writeAll items).outcome with
    | .ok _ => none
    | .error e => some e

/-- The items that a call hands to the cursor: one, or those that it takes from a stream. -/
def handed (c : Cursor α) : Call α → List α
  | write item => [item]
  | writeAll items => (Std.Stream.take items (c.writeAll items).pulled).1

/-- Every call puts the items that it hands to the cursor. -/
theorem after_eq (c : Cursor α) (call : Call α) :
    call.after c = (call.handed c).foldl put c := by
  cases call with
  | write item => rfl
  | writeAll items =>
    rw [handed, take_pulled, after, writeAll_eq]

/-- **A call fails if and only if it hands more items to the cursor than there is room for.** -/
theorem error?_eq_some_iff (c : Cursor α) (call : Call α) (e : OutOfBounds) :
    call.error? c = some e ↔ c.remaining < (call.handed c).length ∧ e = ⟨c.buffer.size⟩ := by
  cases call with
  | write item =>
    have hle := c.position_le
    have hroom : c.isFull = true ↔ c.remaining < 1 := by
      rw [isFull_iff, remaining]
      omega
    have hiff := write_eq_error_iff c item e
    rw [hroom] at hiff
    rw [handed, List.length_singleton, ← hiff, error?]
    cases c.write item <;> simp
  | writeAll items =>
    rw [handed, take_pulled, error?, writeAll_eq]
    by_cases hle : (Std.Stream.take items (c.remaining + 1)).1.length ≤ c.remaining
    · simp [hle]
    · simp [hle, eq_comm]
      omega

end Call

/-- The cursor after several calls. -/
def run (c : Cursor α) (calls : List (Call α)) : Cursor α := calls.foldl Call.after c

/-- The items that several calls hand to a cursor. -/
def handed (c : Cursor α) : List (Call α) → List α
  | [] => []
  | call :: calls => call.handed c ++ handed (call.after c) calls

/-- Several calls put all their items, one after the other. -/
theorem run_eq (c : Cursor α) (calls : List (Call α)) :
    run c calls = (handed c calls).foldl put c := by
  induction calls generalizing c with
  | nil => rfl
  | cons call calls ih =>
    rw [handed, List.foldl_append, ← Call.after_eq, ← ih]
    rfl

theorem holds_run (buffer : Array α) (calls : List (Call α)) :
    Holds buffer (handed (ofBuffer buffer) calls) (run (ofBuffer buffer) calls) := by
  rw [run_eq]
  exact (holds_ofBuffer buffer).foldl_put _

end Cursor

/-! ## Edits of what was written -/

namespace Filled

/-- What edits of the open slots can make of a buffer. -/
inductive Edited (f : Filled α) : Filled α → Prop
  | refl : Edited f f
  | set {g : Filled α} (i : Nat) (item : α) (h : i < g.size) :
      Edited f g → Edited f (g.set i item h)
  | swap {g : Filled α} (i j : Nat) (hi : i < g.size) (hj : j < g.size) :
      Edited f g → Edited f (g.swap i j hi hj)

theorem Edited.mirror {f g : Filled α} (h : Edited f g) (n : Nat) (hn : n ≤ g.size / 2) :
    Edited f (g.mirror n hn) := by
  induction n generalizing g with
  | zero => exact h
  | succ n ih => exact ih (h.swap n (g.size - 1 - n) (by omega) (by omega)) _

/-- To reverse the open slots is an edit. -/
theorem Edited.reverse {f g : Filled α} (h : Edited f g) : Edited f g.reverse :=
  h.mirror _ _

/-- **Edits leave the slots behind the open ones as they are.** -/
theorem Edited.frame {f g : Filled α} (h : Edited f g) :
    g.size = f.size ∧ g.buffer.toList.drop f.size = f.buffer.toList.drop f.size := by
  induction h with
  | refl => exact ⟨rfl, rfl⟩
  | @set g i item hi _ ih =>
    obtain ⟨hsize, hdrop⟩ := ih
    refine ⟨hsize, ?_⟩
    rw [Filled.set, Array.toList_set, List.drop_set_of_lt (by omega), hdrop]
  | @swap g i j hi hj _ ih =>
    obtain ⟨hsize, hdrop⟩ := ih
    refine ⟨hsize, ?_⟩
    show (g.buffer.swap i j _ _).toList.drop f.size = _
    rw [Array.swap_def, Array.toList_set, Array.toList_set, List.drop_set_of_lt (by omega),
      List.drop_set_of_lt (by omega), hdrop]

end Filled

/-! ## Whole runs -/

/-- **What a cursor is after any calls.**  Let `items` be all the items that the calls, the failing
ones included, have handed to it.

* Its position is their number, but the capacity at most; what remains is the rest of the capacity,
  and it is full when the position is the capacity.
* What has been written are the first of the items, as many as there are slots, and behind them the
  buffer is as it was.
* The calls have done nothing but to write the items one by one.  A write fails if and only if the
  cursor is full, the error names the capacity, and the cursor stays what it is.  So a call fails if
  and only if it hands in more items than there is room for; a bulk write has taken from its stream
  just those that it has handed in.
* The slots that are given back are those that have been written, and whatever edits make of them,
  the buffer behind them is as it was in the beginning. -/
theorem cursor_run (buffer : Array α) (calls : List (Cursor.Call α)) :
    let c := Cursor.run (.ofBuffer buffer) calls
    let items := Cursor.handed (.ofBuffer buffer) calls
    (c.position = min buffer.size items.length ∧ c.position ≤ buffer.size ∧
      c.remaining = buffer.size - c.position ∧ c.remaining + c.position = buffer.size ∧
      (c.isFull = true ↔ c.position = buffer.size)) ∧
    (c.written = items.take buffer.size ∧
      c.buffer.toList = c.written ++ buffer.toList.drop c.position) ∧
    (c = items.foldl Cursor.put (.ofBuffer buffer) ∧
      (∀ item e, c.write item = .error e ↔ c.isFull = true ∧ e = ⟨buffer.size⟩) ∧
      (∀ item, c.isFull = true → c.put item = c) ∧
      (∀ (call : Cursor.Call α) (e : OutOfBounds), call.error? c = some e ↔
        c.remaining < (call.handed c).length ∧ e = ⟨buffer.size⟩) ∧
      ∀ (ρ : Type) [Std.Stream ρ α] (stream : ρ),
        Std.Stream.take stream (c.writeAll stream).pulled =
          ((Cursor.Call.writeAll stream).handed c, (c.writeAll stream).rest)) ∧
    c.intoWritten.toList = c.written ∧
      ∀ filled : Filled α, c.intoWritten.Edited filled →
        filled.size = c.position ∧
          filled.buffer.toList = filled.toList ++ buffer.toList.drop c.position := by
  intro c items
  have hholds : Cursor.Holds buffer items c := Cursor.holds_run buffer calls
  have hposition := hholds.position_eq
  have hsize := hholds.size_eq
  refine ⟨⟨hposition, by omega, ?_, ?_, ?_⟩, ⟨hholds.written_eq, ?_⟩,
    ⟨Cursor.run_eq _ calls, fun item e => ?_, fun item hfull => ?_, fun call e => ?_, ?_⟩, rfl, ?_⟩
  · rw [Cursor.remaining, hsize]
  · rw [Cursor.remaining, hsize]
    omega
  · rw [Cursor.isFull_iff, hsize]
  · rw [← hholds.drop_eq, Cursor.written, List.take_append_drop]
  · rw [Cursor.write_eq_error_iff, hsize]
  · exact Cursor.put_of_isFull hfull item
  · rw [Cursor.Call.error?_eq_some_iff, hsize]
  · intro ρ _ stream
    rw [Cursor.Call.handed, Cursor.take_pulled, Cursor.writeAll_eq]
  · intro filled hedited
    obtain ⟨hopen, hframe⟩ := hedited.frame
    refine ⟨hopen, ?_⟩
    have hdrop : filled.buffer.toList.drop c.position = buffer.toList.drop c.position :=
      hframe.trans hholds.drop_eq
    rw [← hdrop, Filled.toList, hopen]
    exact (List.take_append_drop _ _).symm

/-- A bulk write loses an item and leaves another in its stream, and the last write is refused.
Before that, the letters that were written can be reversed, and the last slot stays empty. -/
theorem cursor_run_letters :
    let calls : List (Cursor.Call Char) := [.write 'a', .writeAll ['b']]
    let more : List (Cursor.Call Char) := calls ++ [.writeAll ['c', 'd', 'e'], .write 'f']
    let blank : Cursor Char := .ofBuffer #['-', '-', '-']
    let two := (Cursor.run blank calls).intoWritten.reverse
    let full := Cursor.run blank more
    Cursor.handed blank more = ['a', 'b', 'c', 'd', 'f'] ∧ full.written = ['a', 'b', 'c'] ∧
      full.isFull = true ∧ full.put 'g' = full ∧
      (Cursor.run blank calls).intoWritten.Edited two ∧
      two.buffer.toList = two.toList ++ ['-'] := by
  intro calls more blank two full
  have hcalls : Cursor.handed blank calls = ['a', 'b'] := by
    simp only [calls, Cursor.handed, Cursor.Call.handed, Cursor.take_pulled, Cursor.Call.after_eq]
    decide
  have hmore : Cursor.handed blank more = ['a', 'b', 'c', 'd', 'f'] := by
    simp only [more, calls, List.cons_append, List.nil_append, Cursor.handed, Cursor.Call.handed,
      Cursor.take_pulled, Cursor.Call.after_eq]
    decide
  have hedited : (Cursor.run blank calls).intoWritten.Edited two := .reverse .refl
  obtain ⟨⟨hposition, -, -, -, hisFull⟩, ⟨hwritten, -⟩, ⟨-, -, hput, -⟩, -⟩ :=
    cursor_run #['-', '-', '-'] more
  obtain ⟨⟨htwo, -⟩, -, -, -, hframe⟩ := cursor_run #['-', '-', '-'] calls
  have hfull : full.isFull = true := hisFull.2 (hposition.trans (by rw [hmore]; rfl))
  refine ⟨hmore, ?_, hfull, hput 'g' hfull, hedited, ?_⟩
  · rw [hwritten, hmore]
    rfl
  · rw [(hframe two hedited).2, htwo, hcalls]
    rfl

end Sortition

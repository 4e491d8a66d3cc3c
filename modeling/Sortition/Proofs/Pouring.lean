import Mathlib
import Sortition.Proofs.Writing

/-!
# What a bulk write takes from its stream

A bulk write takes an item from its stream before it knows whether the item fits.  So how many are
gone afterwards is decided at the end of the buffer, and at the end of the stream, whichever comes
first: a stream that has just as many items as there is room for is asked once more, and ends; one
that has more loses an item that is stored nowhere; and one without an end is left soon enough.

* `Pulls items pulled rest` says that some items have been taken from a stream, and what is left of
  it then.  `Ends items all` says that the stream has these items and no more; a stream that is
  endless does so for no list.
* `pulls_writeAll` is one bulk write, with its two ways to stop; `writeAll_of_fits` and
  `writeAll_of_not_fits` say what the one and the other leave.
* `Chained` is a stream and then another one, and `writeAll_chained` says that to write it is to
  write the first and then, if all of that did fit, the second.
* `writeAll_exact` puts this together.
-/

set_option autoImplicit false

namespace Sortition

variable {α ρ ρ' : Type}

/-! ## Taking from a stream -/

section

variable [Std.Stream ρ α]

/-- To take the items of a list from a stream, one after the other, leaves the rest. -/
inductive Pulls : ρ → List α → ρ → Prop
  | nothing (items : ρ) : Pulls items [] items
  | next {items rest last : ρ} {item : α} {pulled : List α} :
      Std.Stream.next? items = some (item, rest) → Pulls rest pulled last →
      Pulls items (item :: pulled) last

/-- A stream has the items of a list, and no more. -/
def Ends (items : ρ) (all : List α) : Prop :=
  ∃ rest, Pulls items all rest ∧ Std.Stream.next? rest = none

/-- What is taken from a stream later goes on where it stopped. -/
theorem Pulls.exists_more {items rest : ρ} {pulled : List α} (h : Pulls items pulled rest)
    {rest' : ρ} {pulled' : List α} (h' : Pulls items pulled' rest')
    (hle : pulled.length ≤ pulled'.length) :
    ∃ more, pulled' = pulled ++ more ∧ Pulls rest more rest' := by
  induction h generalizing pulled' with
  | nothing items => exact ⟨pulled', rfl, h'⟩
  | next hnext _ ih =>
    cases h' with
    | nothing => simp at hle
    | next hnext' h' =>
      obtain ⟨rfl, rfl⟩ := Prod.mk.inj (Option.some.inj (hnext.symm.trans hnext'))
      obtain ⟨more, rfl, hmore⟩ := ih h' (by simpa using hle)
      exact ⟨more, rfl, hmore⟩

/-- From a stream that has come to its end nothing is taken. -/
theorem Pulls.eq_nil {items rest : ρ} {pulled : List α} (h : Pulls items pulled rest)
    (hnext : Std.Stream.next? items = none) : pulled = [] ∧ rest = items := by
  cases h with
  | nothing => exact ⟨rfl, rfl⟩
  | next hnext' _ => rw [hnext] at hnext'; cases hnext'

/-- No more can be taken from a stream than it has. -/
theorem Ends.length_le {items rest : ρ} {all pulled : List α} (h : Ends items all)
    (hpulls : Pulls items pulled rest) : pulled.length ≤ all.length := by
  obtain ⟨last, hall, hend⟩ := h
  by_contra hlt
  obtain ⟨more, rfl, hmore⟩ := hall.exists_more hpulls (by omega)
  obtain ⟨rfl, -⟩ := hmore.eq_nil hend
  simp at hlt

/-- What is taken from a stream up to its end is all that it has. -/
theorem Ends.eq_of_pulls {items rest : ρ} {all pulled : List α} (h : Ends items all)
    (hpulls : Pulls items pulled rest) (hend : Std.Stream.next? rest = none) :
    pulled = all ∧ Pulls items all rest := by
  have hle := h.length_le hpulls
  obtain ⟨last, hall, -⟩ := h
  obtain ⟨more, rfl, hmore⟩ := hpulls.exists_more hall hle
  obtain ⟨rfl, -⟩ := hmore.eq_nil hend
  rw [List.append_nil]
  exact ⟨rfl, hpulls⟩

theorem pulls_take (items : ρ) (n : Nat) :
    Pulls items (Std.Stream.take items n).1 (Std.Stream.take items n).2 := by
  induction n generalizing items with
  | zero => exact .nothing items
  | succ n ih =>
    cases hnext : Std.Stream.next? items with
    | none => simpa [Std.Stream.take, hnext] using Pulls.nothing items
    | some next =>
      rw [Cursor.take_succ_of_next hnext]
      exact .next hnext (ih next.2)

/-- A stream that has fewer items than are asked of it comes to its end. -/
theorem length_take_cases (items : ρ) (n : Nat) :
    (Std.Stream.take items n).1.length = n ∨
      (Std.Stream.take items n).1.length < n ∧
        Std.Stream.next? (Std.Stream.take items n).2 = none := by
  induction n generalizing items with
  | zero => exact .inl rfl
  | succ n ih =>
    cases hnext : Std.Stream.next? items with
    | none => exact .inr (by simp [Std.Stream.take, hnext])
    | some next =>
      rw [Cursor.take_succ_of_next hnext, List.length_cons]
      rcases ih next.2 with heq | ⟨hlt, hend⟩
      · exact .inl (by rw [heq])
      · exact .inr ⟨by omega, hend⟩

/-! ## One bulk write -/

/-- **A bulk write stops in one of two ways.**  The items that it takes are put into the cursor in
turn.  Either they all fit, and the stream has come to its end, or there is one more than fits, and
the stream is not asked again. -/
theorem pulls_writeAll (c : Cursor α) (items : ρ) :
    let poured := c.writeAll items
    ∃ pulled, Pulls items pulled poured.rest ∧ poured.pulled = pulled.length ∧
      poured.cursor = pulled.foldl Cursor.put c ∧
      (poured.outcome = .ok pulled.length ∧ pulled.length ≤ c.remaining ∧
          Std.Stream.next? poured.rest = none ∨
        poured.outcome = .error ⟨c.capacity⟩ ∧ pulled.length = c.remaining + 1) := by
  rw [Cursor.writeAll_eq]
  refine ⟨_, pulls_take items (c.remaining + 1), rfl, rfl, ?_⟩
  rcases length_take_cases items (c.remaining + 1) with heq | ⟨hlt, hend⟩
  · refine .inr ⟨if_neg (by omega), heq⟩
  · exact .inl ⟨if_pos (by omega), by omega, hend⟩

end

theorem Cursor.length_written (c : Cursor α) : c.written.length = c.position := by
  rw [written, List.length_take, Array.length_toList]
  exact Nat.min_eq_left c.position_le

/-- A cursor holds what has been written to it. -/
theorem Cursor.holds_written (c : Cursor α) : Holds c.buffer c.written c where
  position_eq := by
    rw [length_written]
    exact (Nat.min_eq_right c.position_le).symm
  buffer_eq := by
    rw [List.take_of_length_le (by rw [length_written]; exact c.position_le), length_written,
      written, List.take_append_drop]

theorem Cursor.remaining_add_position (c : Cursor α) : c.remaining + c.position = c.buffer.size :=
  Nat.sub_add_cancel c.position_le

/-- Behind what is written, a buffer is as it was before. -/
theorem Cursor.Holds.toList_buffer {buffer : Array α} {items : List α} {c : Cursor α}
    (h : Holds buffer items c) :
    c.buffer.toList = c.written ++ buffer.toList.drop c.position := by
  rw [← h.drop_eq, written, List.take_append_drop]

section

variable [Std.Stream ρ α] (c : Cursor α) {items : ρ}

theorem outcome_writeAll_eq_ok_iff {n : Nat} : (c.writeAll items).outcome = .ok n ↔
    ∃ all, Ends items all ∧ all.length = n ∧ n ≤ c.remaining := by
  obtain ⟨pulled, hpulls, -, -, ⟨hok, hfits, hend⟩ | ⟨herror, htoo⟩⟩ := pulls_writeAll c items
  · constructor
    · intro h
      obtain rfl := Except.ok.inj (hok.symm.trans h)
      exact ⟨pulled, ⟨_, hpulls, hend⟩, rfl, hfits⟩
    · rintro ⟨all, hall, rfl, -⟩
      obtain ⟨rfl, -⟩ := hall.eq_of_pulls hpulls hend
      exact hok
  · constructor
    · intro h
      cases herror.symm.trans h
    · rintro ⟨all, hall, rfl, hle⟩
      have := hall.length_le hpulls
      omega

/-- What fits is written as a whole. -/
theorem writeAll_of_fits {all : List α} (hall : Ends items all) (hle : all.length ≤ c.remaining) :
    let poured := c.writeAll items
    let after := poured.cursor
    poured.pulled = all.length ∧ Pulls items all poured.rest ∧
      Std.Stream.next? poured.rest = none ∧ after.position = c.position + all.length ∧
      after.written = c.written ++ all ∧
      after.buffer.toList = after.written ++ c.buffer.toList.drop after.position := by
  intro poured after
  obtain ⟨pulled, hpulls, hcount, hafter, ⟨-, -, hend⟩ | ⟨-, htoo⟩⟩ := pulls_writeAll c items
  · obtain ⟨rfl, -⟩ := hall.eq_of_pulls hpulls hend
    have hholds : after.Holds c.buffer (c.written ++ pulled) := by
      rw [show after = pulled.foldl Cursor.put c from hafter]
      exact c.holds_written.foldl_put pulled
    have hlength : (c.written ++ pulled).length = c.position + pulled.length := by
      rw [List.length_append, c.length_written]
    have hposition := hholds.position_eq
    have hremaining := c.remaining_add_position
    refine ⟨hcount, hpulls, hend, by omega, ?_, hholds.toList_buffer⟩
    rw [hholds.written_eq, List.take_of_length_le (by omega)]
  · have := hall.length_le hpulls
    omega

/-- What does not fit fills the buffer, and one item is lost. -/
theorem writeAll_of_not_fits (h : ¬∃ all, Ends items all ∧ all.length ≤ c.remaining) :
    let poured := c.writeAll items
    let after := poured.cursor
    poured.outcome = .error ⟨c.capacity⟩ ∧ poured.pulled = c.remaining + 1 ∧
      ∃ stored lost, stored.length = c.remaining ∧ Pulls items (stored ++ [lost]) poured.rest ∧
        after.isFull = true ∧ after.written = c.written ++ stored ∧
        after.buffer.toList = after.written := by
  intro poured after
  obtain ⟨pulled, hpulls, hcount, hafter, ⟨-, hfits, hend⟩ | ⟨herror, htoo⟩⟩ :=
    pulls_writeAll c items
  · exact absurd ⟨pulled, ⟨_, hpulls, hend⟩, hfits⟩ h
  rcases List.eq_nil_or_concat' pulled with rfl | ⟨stored, lost, rfl⟩
  · cases htoo
  -- the last of the items is the one that was refused
  have hstored : stored.length = c.remaining := by
    rw [List.length_append, List.length_singleton] at htoo
    omega
  have hholds : after.Holds c.buffer (c.written ++ (stored ++ [lost])) := by
    rw [show after = (stored ++ [lost]).foldl Cursor.put c from hafter]
    exact c.holds_written.foldl_put _
  have hlength : (c.written ++ stored).length = c.buffer.size := by
    rw [List.length_append, c.length_written, hstored, Nat.add_comm, c.remaining_add_position]
  have hfull : after.position = after.buffer.size := by
    rw [hholds.size_eq, hholds.position_eq, ← List.append_assoc, List.length_append, hlength]
    exact Nat.min_eq_left (Nat.le_add_right _ _)
  refine ⟨herror, hcount.trans htoo, stored, lost, hstored, hpulls,
    (Cursor.isFull_iff after).2 hfull, ?_, ?_⟩
  · rw [hholds.written_eq, ← List.append_assoc, ← hlength, List.take_left]
  · rw [Cursor.written, hfull, ← Array.length_toList, List.take_length]

end

/-! ## A stream and then another -/

/-- A stream, and behind it another one. -/
structure Chained (ρ ρ' : Type) where
  first : ρ
  second : ρ'

instance [Std.Stream ρ α] [Std.Stream ρ' α] : Std.Stream (Chained ρ ρ') α where
  next? items :=
    match Std.Stream.next? items.first with
    | some (item, rest) => some (item, ⟨rest, items.second⟩)
    | none =>
      match Std.Stream.next? items.second with
      | some (item, rest) => some (item, ⟨items.first, rest⟩)
      | none => none

section

variable [Std.Stream ρ α] [Std.Stream ρ' α]

theorem next?_chained_of_some {items rest : ρ} {item : α} (more : ρ')
    (h : Std.Stream.next? items = some (item, rest)) :
    Std.Stream.next? (Chained.mk items more) = some (item, ⟨rest, more⟩) := by
  simp only [Std.Stream.next?, h]

theorem next?_chained_of_none {items : ρ} (more : ρ') (h : Std.Stream.next? items = none) :
    Std.Stream.next? (Chained.mk items more) =
      (Std.Stream.next? more).map fun next => (next.1, ⟨items, next.2⟩) := by
  simp only [Std.Stream.next?, h]
  cases Std.Stream.next? more <;> rfl

/-- What comes of a bulk write and, if all of it did fit, of another one after it. -/
def Poured.andThen (poured : Poured ρ α) (more : ρ') : Poured (Chained ρ ρ') α :=
  match poured.outcome with
  | .error e => ⟨poured.cursor, .error e, poured.pulled, ⟨poured.rest, more⟩⟩
  | .ok n =>
    let next := poured.cursor.writeAll more
    ⟨next.cursor, next.outcome.map (n + ·), poured.pulled + next.pulled, ⟨poured.rest, next.rest⟩⟩

end

namespace Cursor

section

variable [Std.Stream ρ α]

theorem writeAll_of_none (c : Cursor α) {items : ρ} (h : Std.Stream.next? items = none) :
    c.writeAll items = ⟨c, .ok 0, 0, items⟩ := by
  rw [writeAll, h]

theorem writeAll_of_error {c : Cursor α} {items rest : ρ} {item : α} {e : OutOfBounds}
    (h : Std.Stream.next? items = some (item, rest)) (hwrite : c.write item = .error e) :
    c.writeAll items = ⟨c, .error e, 1, rest⟩ := by
  rw [writeAll, h]
  simp only
  split <;> simp_all

theorem writeAll_of_ok {c next : Cursor α} {items rest : ρ} {item : α}
    (h : Std.Stream.next? items = some (item, rest)) (hwrite : c.write item = .ok next) :
    c.writeAll items =
      let poured := next.writeAll rest
      ⟨poured.cursor, poured.outcome.map (· + 1), poured.pulled + 1, poured.rest⟩ := by
  rw [writeAll, h]
  simp only
  split <;> simp_all

variable [Std.Stream ρ' α]

/-- Behind a stream that has come to its end, the other one is written as if it were alone. -/
theorem writeAll_chained_of_none (c : Cursor α) {items : ρ} (h : Std.Stream.next? items = none)
    (more : ρ') : c.writeAll (Chained.mk items more) =
      let poured := c.writeAll more
      ⟨poured.cursor, poured.outcome, poured.pulled, ⟨items, poured.rest⟩⟩ := by
  have hnext? := next?_chained_of_none more h
  fun_induction writeAll c more with
  | case1 c more hnext =>
    rw [hnext] at hnext?
    rw [writeAll_of_none c hnext?]
  | case2 c more item rest hnext e hwrite =>
    rw [hnext] at hnext?
    rw [writeAll_of_error hnext? hwrite]
  | case3 c more item rest hnext next hwrite _ poured ih =>
    rw [hnext] at hnext?
    rw [writeAll_of_ok hnext? hwrite, ih (next?_chained_of_none rest h)]

/-- **To write a stream and then another is to write the first, and the second if all of the first
did fit.** -/
theorem writeAll_chained (c : Cursor α) (items : ρ) (more : ρ') :
    c.writeAll (Chained.mk items more) = (c.writeAll items).andThen more := by
  fun_induction writeAll c items with
  | case1 c items hnext =>
    rw [writeAll_chained_of_none c hnext, Poured.andThen]
    simp only [Nat.zero_add]
    cases (c.writeAll more).outcome <;> rfl
  | case2 c items item rest hnext e hwrite =>
    exact writeAll_of_error (next?_chained_of_some more hnext) hwrite
  | case3 c items item rest hnext next hwrite _ poured ih =>
    rw [writeAll_of_ok (next?_chained_of_some more hnext) hwrite, ih]
    simp only [Poured.andThen, poured]
    cases (next.writeAll rest).outcome with
    | error e => rfl
    | ok n =>
      simp only [Except.map]
      cases ((next.writeAll rest).cursor.writeAll more).outcome <;> simp only [Nat.add_right_comm]

end

end Cursor

section

variable [Std.Stream ρ α] [Std.Stream ρ' α]

theorem Pulls.chained {items rest : ρ} {pulled : List α} (h : Pulls items pulled rest) (more : ρ') :
    Pulls (Chained.mk items more) pulled ⟨rest, more⟩ := by
  induction h with
  | nothing items => exact .nothing _
  | next hnext _ ih => exact .next (next?_chained_of_some more hnext) ih

theorem Pulls.chained_of_none {items : ρ} (hend : Std.Stream.next? items = none) {more rest : ρ'}
    {pulled : List α} (h : Pulls more pulled rest) :
    Pulls (Chained.mk items more) pulled ⟨items, rest⟩ := by
  induction h with
  | nothing more => exact .nothing _
  | next hnext _ ih =>
    refine .next ?_ ih
    rw [next?_chained_of_none _ hend, hnext]
    rfl

theorem Pulls.trans {items rest last : ρ} {pulled more : List α} (h : Pulls items pulled rest)
    (h' : Pulls rest more last) : Pulls items (pulled ++ more) last := by
  induction h with
  | nothing items => exact h'
  | next hnext _ ih => exact .next hnext (ih h')

/-- A stream and then another have the items of the first and then those of the second. -/
theorem Ends.chained {items : ρ} {more : ρ'} {all all' : List α} (h : Ends items all)
    (h' : Ends more all') : Ends (Chained.mk items more) (all ++ all') := by
  obtain ⟨rest, hall, hend⟩ := h
  obtain ⟨rest', hall', hend'⟩ := h'
  refine ⟨⟨rest, rest'⟩, (hall.chained more).trans (hall'.chained_of_none hend), ?_⟩
  rw [next?_chained_of_none rest' hend, hend']
  rfl

/-! ## The main statement -/

/-- **What a bulk write takes and leaves.**  Whatever the stream, with an end or without, the write
comes to an end, and there are two cases.

* It succeeds, with the number of items, if and only if the stream has as many items as there is
  room for, or fewer.  It has taken all of them, and asked for one more, and they stand behind what
  was written before, in their order; the slots behind them are as they were.
* If not, it fails.  It has taken one item more than there was room for, and none after that.  All
  but the last are stored, in their order, and the buffer is full; the last is lost.

To write a stream and then another, which is a stream that has the items of the first and then those
of the second, comes to the same as to write the first and, only if that succeeds, the second, with
the numbers added: the outcome, the cursor, the number of items taken, and what is left of either
stream. -/
theorem writeAll_exact (c : Cursor α) (items : ρ) (more : ρ') :
    let poured := c.writeAll items
    let after := poured.cursor
    ((∀ n, poured.outcome = .ok n ↔ ∃ all, Ends items all ∧ all.length = n ∧ n ≤ c.remaining) ∧
      ∀ all, Ends items all → all.length ≤ c.remaining →
        poured.pulled = all.length ∧ Pulls items all poured.rest ∧
          Std.Stream.next? poured.rest = none ∧ after.position = c.position + all.length ∧
          after.written = c.written ++ all ∧
          after.buffer.toList = after.written ++ c.buffer.toList.drop after.position) ∧
    ((¬∃ all, Ends items all ∧ all.length ≤ c.remaining) →
      poured.outcome = .error ⟨c.capacity⟩ ∧ poured.pulled = c.remaining + 1 ∧
        ∃ stored lost, stored.length = c.remaining ∧ Pulls items (stored ++ [lost]) poured.rest ∧
          after.isFull = true ∧ after.written = c.written ++ stored ∧
          after.buffer.toList = after.written) ∧
    (∀ all all', Ends items all → Ends more all' → Ends (Chained.mk items more) (all ++ all')) ∧
    c.writeAll (Chained.mk items more) =
      match poured.outcome with
      | .error e => ⟨after, .error e, poured.pulled, ⟨poured.rest, more⟩⟩
      | .ok n =>
        let next := after.writeAll more
        ⟨next.cursor, next.outcome.map (n + ·), poured.pulled + next.pulled,
          ⟨poured.rest, next.rest⟩⟩ := by
  exact ⟨⟨fun n => outcome_writeAll_eq_ok_iff c, fun all => writeAll_of_fits c⟩,
    writeAll_of_not_fits c, fun all all' h h' => h.chained h', c.writeAll_chained items more⟩

end

/-- Into the two slots that are left two letters are written, and of an endless repetition of a
letter three are taken. -/
theorem writeAll_exact_letters :
    letI : Std.Stream Char Char := ⟨fun letter => some (letter, letter)⟩
    let c : Cursor Char := ⟨#['x', '-', '-'], 1, by decide⟩
    let two := c.writeAll ['a', 'b']
    let endless := c.writeAll 'e'
    (two.outcome = .ok 2 ∧ two.pulled = 2 ∧ two.cursor.written = ['x', 'a', 'b']) ∧
      endless.outcome = .error ⟨3⟩ ∧ endless.pulled = 3 ∧ endless.cursor.isFull = true := by
  let echo : Std.Stream Char Char := ⟨fun letter => some (letter, letter)⟩
  intro c two endless
  have htwo : Ends ['a', 'b'] ['a', 'b'] := ⟨[], .next rfl (.next rfl (.nothing [])), rfl⟩
  obtain ⟨⟨hok, hall⟩, -⟩ := writeAll_exact c ['a', 'b'] 'e'
  obtain ⟨hpulled, -, -, -, hwritten, -⟩ := hall ['a', 'b'] htwo (by decide)
  obtain ⟨-, hfull, -⟩ := writeAll_exact c 'e' ['a', 'b']
  obtain ⟨herror, hthree, -, -, -, -, hisFull, -⟩ := hfull (by
    rintro ⟨all, ⟨rest, -, hend⟩, -⟩
    cases hend)
  exact ⟨⟨(hok 2).2 ⟨_, htwo, rfl, by decide⟩, hpulled, hwritten⟩, herror, hthree, hisFull⟩

end Sortition

import Sortition.Keyed.Basic
import Sortition.Erase.Compact

/-!
# What is done with maps by key

A map may hold values themselves, or addresses of values: a box, which is the only way to its value,
or a reference to a cell of a memory, which other references may share.  `valueAt?` and
`modifyValueAt?` find and change what a map holds under a key; `targetAt?` and `modifyTargetAt?`
find and change what the address held there leads to.  A key that is missing gives `none`, and
nothing is changed.

A multimap is a map whose values are buckets: arrays of the values that belong to the key.
`erasePair` removes every value of one bucket that equals a given value, and drops the bucket if it
is empty then, be it that it was empty before.  Equality is any test; a value that does not equal
itself is never removed.
-/

set_option autoImplicit false

namespace Sortition

/-! ## Looking up by value and through addresses

`Address P μ V` says how an address `P` is followed in a memory `μ`, and `WritableAddress` how what
it leads to is changed; a change may concern the address, as with a box, or the memory, as with a
reference. -/

/-- Addresses that can be followed in a memory. -/
class Address (P μ : Type) (V : outParam Type) where
  /-- What an address leads to. -/
  read : μ → P → V

/-- Addresses through which a value can be changed. -/
class WritableAddress (P μ : Type) (V : outParam Type) extends Address P μ V where
  /-- Change what an address leads to: the memory and the address afterwards. -/
  modify : (V → V) → μ → P → μ × P

/-- A value of its own, reached through its box. -/
structure Boxed (V : Type) where
  content : V

/-- A reference to one of `n` cells, which other references may share. -/
structure SharedRef (n : Nat) where
  cell : Fin n

/-- A reference to one of `n` cells, through which the cell can be changed. -/
structure ExclusiveRef (n : Nat) where
  cell : Fin n

instance {V : Type} : WritableAddress (Boxed V) Unit V where
  read _ box := box.content
  modify f memory box := (memory, ⟨f box.content⟩)

instance {n : Nat} {V : Type} : Address (SharedRef n) (Vector V n) V where
  read cells ref := cells[ref.cell]

instance {n : Nat} {V : Type} : WritableAddress (ExclusiveRef n) (Vector V n) V where
  read cells ref := cells[ref.cell]
  modify f cells ref := (cells.set ref.cell (f cells[ref.cell]), ref)

section

variable {M : Type → Type} {κ P μ V : Type} [KeyedMap M κ]

/-- The value that a map holds under a key. -/
def valueAt? (m : M V) (key : κ) : Option V := KeyedMap.find? m key

/-- Change the value that a map holds under a key. -/
def modifyValueAt? (f : V → V) (m : M V) (key : κ) : Option (M V) :=
  (KeyedMap.find? m key).map fun _ => KeyedMap.modify m key f

/-- The value that the address under a key leads to. -/
def targetAt? [Address P μ V] (memory : μ) (m : M P) (key : κ) : Option V :=
  (KeyedMap.find? m key).map (Address.read memory)

/-- Change the value that the address under a key leads to. -/
def modifyTargetAt? [WritableAddress P μ V] (f : V → V) (memory : μ) (m : M P) (key : κ) :
    Option (μ × M P) :=
  (KeyedMap.find? m key).map fun address =>
    let (memory, address) := WritableAddress.modify f memory address
    (memory, KeyedMap.modify m key fun _ => address)

end

/-! ## Removing a pair from a multimap -/

section

variable {M : Type → Type} {κ β : Type} [KeyedMap M κ] [BEq β]

/-- The values of a bucket that differ from a given one. -/
def eraseFromBucket (value : β) (bucket : Array β) : Array β :=
  Erasable.eraseIf (fun b => b == value) bucket

/-- Remove all pairs of a key and a value equal to the given one: their number, and the multimap
afterwards. -/
def erasePair (m : M (Array β)) (key : κ) (value : β) : Nat × M (Array β) :=
  match KeyedMap.find? m key with
  | none => (0, m)
  | some bucket =>
    let rest := eraseFromBucket value bucket
    (bucket.size - rest.size,
      if rest.isEmpty then KeyedMap.erase m key else KeyedMap.modify m key fun _ => rest)

end

end Sortition

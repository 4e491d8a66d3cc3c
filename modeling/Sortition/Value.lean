/-!
# Values

The elements that sessions work on: integers, strings, floating-point numbers, and lists of values.
Equality (`==`) is that of the parts: values of different kinds differ, and floating-point numbers
are equal when arithmetic says so.  It is therefore not reflexive, since a NaN differs from itself,
and it does not imply identity, since the two zeros are equal.

`Value.compare` is a linear order on values up to identity: it is transitive (`TransOrd`) and calls
only identical values equal (`LawfulEqOrd`).  That is what containers that sort their elements or
keep one entry for each key rely on; it is finer than the equality `==`.
-/

set_option autoImplicit false

namespace Sortition

/-- Integers, strings, floating-point numbers, and lists of values. -/
inductive Value
  | int (i : Int)
  | str (s : String)
  | list (items : List Value)
  | float (x : Float)
deriving Inhabited

namespace Value

mutual

/-- Equality of values: floating-point numbers compare as numbers, also inside lists. -/
def same : Value → Value → Bool
  | .int a, .int b => a == b
  | .str a, .str b => a == b
  | .list a, .list b => sameList a b
  | .float a, .float b => a == b
  | _, _ => false

/-- Equality of lists of values, item by item. -/
def sameList : List Value → List Value → Bool
  | [], [] => true
  | a :: as, b :: bs => same a b && sameList as bs
  | _, _ => false

end

instance : BEq Value := ⟨same⟩

/-- An entry of a map, shown as one value. -/
def pair (entry : Value × Value) : Value := .list [entry.1, entry.2]

end Value

/-! ## The order

Integers come before strings, strings before lists, lists before floating-point numbers.  Integers
are ordered by value, strings code point by code point, lists lexicographically with a list before
its extensions, and floating-point numbers by their encoding, which is no numeric order and serves
to make the order a total one. -/

namespace Value

mutual

/-- The order of values. -/
protected def compare : Value → Value → Ordering
  | .int a, .int b => Ord.compare a b
  | .int _, .str _ => .lt
  | .int _, .list _ => .lt
  | .int _, .float _ => .lt
  | .str _, .int _ => .gt
  | .str a, .str b => Ord.compare a b
  | .str _, .list _ => .lt
  | .str _, .float _ => .lt
  | .list _, .int _ => .gt
  | .list _, .str _ => .gt
  | .list a, .list b => Value.compareList a b
  | .list _, .float _ => .lt
  | .float _, .int _ => .gt
  | .float _, .str _ => .gt
  | .float _, .list _ => .gt
  | .float a, .float b => Ord.compare a.toBits b.toBits

/-- The lexicographic order of lists of values. -/
protected def compareList : List Value → List Value → Ordering
  | [], [] => .eq
  | [], _ :: _ => .lt
  | _ :: _, [] => .gt
  | a :: as, b :: bs => (Value.compare a b).then (Value.compareList as bs)

end

instance : Ord Value := ⟨Value.compare⟩

mutual

protected theorem compare_swap (a b : Value) : Value.compare a b = (Value.compare b a).swap := by
  cases a <;> cases b <;> simp only [Value.compare, Ordering.swap_lt, Ordering.swap_gt]
  · exact Std.OrientedCmp.eq_swap
  · exact Std.OrientedCmp.eq_swap
  · exact Value.compareList_swap _ _
  · exact Std.OrientedCmp.eq_swap

protected theorem compareList_swap : ∀ a b : List Value,
    Value.compareList a b = (Value.compareList b a).swap
  | [], [] => rfl
  | [], _ :: _ => rfl
  | _ :: _, [] => rfl
  | a :: as, b :: bs => by
    simp only [Value.compareList, Ordering.swap_then]
    rw [← Value.compare_swap a b, ← Value.compareList_swap as bs]

end

mutual

protected theorem eq_of_compare_eq (a b : Value) (h : Value.compare a b = .eq) : a = b := by
  cases a <;> cases b <;> simp only [Value.compare, reduceCtorEq] at h
  · rw [Std.LawfulEqCmp.eq_of_compare h]
  · rw [Std.LawfulEqCmp.eq_of_compare h]
  · rw [Value.eq_of_compareList_eq _ _ h]
  · rename_i a b
    obtain ⟨⟨abits, _⟩⟩ := a
    obtain ⟨⟨bbits, _⟩⟩ := b
    obtain rfl : abits = bbits := Std.LawfulEqCmp.eq_of_compare h
    rfl

protected theorem eq_of_compareList_eq : ∀ a b : List Value, Value.compareList a b = .eq → a = b
  | [], [] => fun _ => rfl
  | [], _ :: _ => nofun
  | _ :: _, [] => nofun
  | a :: as, b :: bs => fun h => by
    simp only [Value.compareList, Ordering.then_eq_eq] at h
    rw [Value.eq_of_compare_eq a b h.1, Value.eq_of_compareList_eq as bs h.2]

end

mutual

protected theorem compare_trans (a b c : Value) (hab : Value.compare a b = .lt)
    (hbc : Value.compare b c = .lt) : Value.compare a c = .lt := by
  cases a <;> cases b <;> simp only [Value.compare, reduceCtorEq] at hab <;>
    cases c <;> simp only [Value.compare, reduceCtorEq] at hbc ⊢
  · exact Std.TransCmp.lt_trans hab hbc
  · exact Std.TransCmp.lt_trans hab hbc
  · exact Value.compareList_trans _ _ _ hab hbc
  · exact Std.TransCmp.lt_trans hab hbc

protected theorem compareList_trans : ∀ a b c : List Value,
    Value.compareList a b = .lt → Value.compareList b c = .lt → Value.compareList a c = .lt
  | [], [], _ => nofun
  | _ :: _, [], _ => nofun
  | _, _ :: _, [] => nofun
  | [], _ :: _, _ :: _ => fun _ _ => rfl
  | a :: as, b :: bs, c :: cs => fun hab hbc => by
    simp only [Value.compareList, Ordering.then_eq_lt] at hab hbc ⊢
    obtain hab | ⟨hab, hs⟩ := hab
    · obtain hbc | ⟨hbc, -⟩ := hbc
      · exact .inl (Value.compare_trans a b c hab hbc)
      · exact .inl (Value.eq_of_compare_eq b c hbc ▸ hab)
    · obtain rfl := Value.eq_of_compare_eq a b hab
      obtain hbc | ⟨hbc, hs'⟩ := hbc
      · exact .inl hbc
      · exact .inr ⟨hbc, Value.compareList_trans as bs cs hs hs'⟩

end

instance : Std.OrientedOrd Value where
  eq_swap := Value.compare_swap _ _

instance : Std.TransOrd Value where
  isLE_trans {a b c} hab hbc := by
    rw [Ordering.isLE_iff_eq_lt_or_eq_eq] at hab hbc ⊢
    obtain hab | hab := hab
    · obtain hbc | hbc := hbc
      · exact .inl (Value.compare_trans a b c hab hbc)
      · exact .inl (Value.eq_of_compare_eq b c hbc ▸ hab)
    · obtain rfl := Value.eq_of_compare_eq a b hab
      exact hbc

instance : Std.LawfulEqOrd Value where
  eq_of_compare := Value.eq_of_compare_eq _ _

/-- Identity of values.  This is not `==`, which compares floating-point numbers as numbers. -/
instance : DecidableEq Value := fun a b =>
  decidable_of_iff (Ord.compare a b = .eq) Std.LawfulEqCmp.compare_eq_iff_eq

end Value

end Sortition

import Sortition.Container.Deque
import Sortition.Container.Sorted
import Sortition.Container.Unordered

/-!
# Erasing as an inquiry

`eraseIfM` asks its questions in any monad, and nothing in its type says that it does the same in
all of them.  Here that is made a statement.  An `Inquiry` is a dialogue written down: a question
about an item with what follows either answer, or the result.  It is a monad, so a container can be
erased from in it, and what comes out is the container's whole way of erasing, as data.

`AsksOnly` says that this is all there is: in every monad, erasing is to go through the inquiry and
have its questions answered there (`Inquiry.answerBy`).  It is a weaker promise than
`LawfulErasable`, since nothing is said of which questions are asked or of what is left, and it also
holds of containers without an order of their own.  With it, two erasures whose questions are
answered alike can be compared although they run in different monads: by induction on the inquiry.
-/

set_option autoImplicit false

namespace Sortition

/-- A dialogue: questions about items, each to be answered by yes or no, and then a result. -/
inductive Inquiry (α β : Type)
  | done (result : β)
  | ask (item : α) (next : Bool → Inquiry α β)

namespace Inquiry

variable {α β γ : Type}

/-- Go on with another inquiry when the result is there. -/
protected def bind : Inquiry α β → (β → Inquiry α γ) → Inquiry α γ
  | done result, f => f result
  | ask item next, f => ask item fun answer => (next answer).bind f

instance : Monad (Inquiry α) where
  pure := done
  bind := Inquiry.bind

/-- The question about one item; its answer is the result. -/
def about (item : α) : Inquiry α Bool := ask item done

/-! ## Answers -/

section

variable {m : Type → Type} [Monad m]

/-- Have the questions answered, in turn. -/
def answerBy (p : α → m Bool) : Inquiry α β → m β
  | done result => pure result
  | ask item next => p item >>= fun answer => (next answer).answerBy p

@[simp] theorem answerBy_pure (p : α → m Bool) (b : β) :
    (pure b : Inquiry α β).answerBy p = pure b := rfl

variable [LawfulMonad m]

@[simp] theorem answerBy_about (p : α → m Bool) (item : α) : (about item).answerBy p = p item :=
  bind_pure (p item)

@[simp] theorem answerBy_bind (p : α → m Bool) (x : Inquiry α β) (f : β → Inquiry α γ) :
    (x >>= f).answerBy p = x.answerBy p >>= fun b => (f b).answerBy p := by
  induction x with
  | done result => exact (pure_bind result fun b => (f b).answerBy p).symm
  | ask item next ih =>
    show (p item >>= fun answer => (next answer >>= f).answerBy p) = _
    rw [answerBy, bind_assoc]
    exact bind_congr ih

@[simp] theorem answerBy_map (p : α → m Bool) (f : β → γ) (x : Inquiry α β) :
    (f <$> x).answerBy p = f <$> x.answerBy p := by
  show (x >>= fun b => pure (f b)).answerBy p = _
  simp

end

end Inquiry

/-! ## Ways of erasing -/

/-- Erasing is to go through one inquiry, whatever the monad in which its questions are
answered. -/
class AsksOnly (C : Type) (α : outParam Type) [Erasable C α] : Prop where
  answerBy_eraseIfM : ∀ {m : Type → Type} [Monad m] [LawfulMonad m] (p : α → m Bool) (c : C),
    (Erasable.eraseIfM Inquiry.about c).answerBy p = Erasable.eraseIfM p c

section

variable {C α : Type} {m : Type → Type} [Monad m] [LawfulMonad m]

theorem answerBy_refuse (p : α → m Bool) :
    (fun item => (refuse Inquiry.about item).answerBy p) = refuse p := by
  funext item
  simp [refuse]

theorem answerBy_siftM (p : α → m Bool) (keep : α → Inquiry α Bool) (items : List α) :
    (siftM keep items).answerBy p = siftM (fun item => (keep item).answerBy p) items := by
  induction items with
  | nil => rfl
  | cons item items ih => simp [siftM, ih]

theorem answerBy_retainM (p : α → m Bool) (keep : α → Inquiry α Bool) (items : List α) :
    (retainM keep items).answerBy p = retainM (fun item => (keep item).answerBy p) items := by
  induction items with
  | nil => rfl
  | cons item items ih => simp [retainM, ih]

theorem answerBy_relinkOntoM (p : α → m Bool) (linked items : List α) :
    (relinkOntoM Inquiry.about linked items).answerBy p = relinkOntoM p linked items := by
  induction items generalizing linked with
  | nil => rfl
  | cons item items ih =>
    rw [relinkOntoM, relinkOntoM, Inquiry.answerBy_bind, Inquiry.answerBy_about]
    refine bind_congr fun goes => ?_
    cases goes <;> exact ih _

theorem answerBy_settleM [Swappable C α] (p : α → m Bool) :
    ∀ (left read write : Nat) (c : C) (hsize : read + left = Sequence.size c)
      (hle : write ≤ read), (settleM Inquiry.about left read write c hsize hle).answerBy p =
        settleM p left read write c hsize hle
  | 0, _, _, _, _, _ => rfl
  | left + 1, read, write, c, hsize, hle => by
    rw [settleM, settleM, Inquiry.answerBy_bind, Inquiry.answerBy_about]
    refine bind_congr fun goes => ?_
    cases goes with
    | true => exact answerBy_settleM p left _ _ _ _ _
    | false =>
      simp only [Bool.false_eq_true, if_false]
      split
      · exact answerBy_settleM p left _ _ _ _ _
      · exact answerBy_settleM p left _ _ _ _ _

theorem answerBy_compactM [Swappable C α] (p : α → m Bool) (c : C) :
    (compactM Inquiry.about c).answerBy p = compactM p c := by
  rw [compactM, compactM, Inquiry.answerBy_bind, answerBy_settleM]
  rfl

end

/-! ## The containers -/

section

variable {α κ ν : Type}

instance : AsksOnly (List α) α where
  answerBy_eraseIfM p items := answerBy_relinkOntoM p [] items

instance : AsksOnly (Array α) α where
  answerBy_eraseIfM p items := answerBy_compactM p items

instance : AsksOnly (Deque α) α where
  answerBy_eraseIfM p d := answerBy_compactM p d

instance {C : Type} [Swappable C α] : AsksOnly (Traced C) α where
  answerBy_eraseIfM p t := answerBy_compactM p t

instance [Ord α] : AsksOnly (SortedSet α) α where
  answerBy_eraseIfM p s := by
    simp [Erasable.eraseIfM, answerBy_retainM, answerBy_refuse]

instance [Ord κ] [Std.TransOrd κ] : AsksOnly (SortedMap κ ν) (κ × ν) where
  answerBy_eraseIfM p m := by
    simp [Erasable.eraseIfM, answerBy_siftM, answerBy_refuse]

instance [Key α] : AsksOnly (UnorderedSet α) α where
  answerBy_eraseIfM p s := by
    simp [Erasable.eraseIfM, answerBy_retainM, answerBy_refuse]

instance [Key κ] : AsksOnly (UnorderedMap κ ν) (κ × ν) where
  answerBy_eraseIfM p m := by
    simp [Erasable.eraseIfM, answerBy_siftM, answerBy_refuse]

end

end Sortition

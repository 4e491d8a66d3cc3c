import Mathlib.Data.List.Forall2
import Sortition.Draw

/-!
# Requests in turn, and their answers

What a source is asked is data, a list of `Request`s; what it says to them is a list of numbers.
`Answered requests s answers s'` ties the two: asked the requests in turn, the source `s` gives the
answers in turn, without a fault, and is `s'` afterwards.  An answer `Fits` its request if it is one
of those that were asked for, and a source is `Honest` about requests if all of its answers fit.

Nothing here depends on what the source is.  Two lemmas say how it looks for the sources that the
statements of this library are made with: a script gives its answers (`answered_script`), and a
record of the requests that are made shows just these requests (`Answered.recorded`).
-/

set_option autoImplicit false

namespace Sortition

/-- The draw that a request asks for. -/
def Request.draw {σ : Type} [Source σ] : Request → Draw σ Nat
  | .uniform lo hi => Source.uniform lo hi
  | .weighted weights => Source.weighted weights

/-- An answer is one of those that were asked for. -/
def Request.Fits : Request → Nat → Prop
  | .uniform lo hi, answer => lo ≤ answer ∧ answer ≤ hi
  | .weighted weights, answer => answer < weights.length

instance : (request : Request) → (answer : Nat) → Decidable (request.Fits answer)
  | .uniform lo hi, answer => inferInstanceAs (Decidable (lo ≤ answer ∧ answer ≤ hi))
  | .weighted weights, answer => inferInstanceAs (Decidable (answer < weights.length))

section

variable {σ : Type} [Source σ]

/-- Asked the requests in turn, a source gives the answers in turn. -/
inductive Answered : (requests : List Request) → σ → (answers : List Nat) → σ → Prop
  | nil (s : σ) : Answered [] s [] s
  | cons {request : Request} {requests : List Request} {s s' s'' : σ} {answer : Nat}
      {answers : List Nat} (first : request.draw.runFrom s = (.ok answer, s'))
      (rest : Answered requests s' answers s'') :
      Answered (request :: requests) s (answer :: answers) s''

/-- Asked the requests in turn, a source gives fitting answers. -/
def Honest : (requests : List Request) → σ → Prop
  | [], _ => True
  | request :: requests, s => ∃ answer s', request.draw.runFrom s = (.ok answer, s') ∧
      request.Fits answer ∧ Honest requests s'

theorem Honest.exists_answered : ∀ {requests : List Request} {s : σ}, Honest requests s →
    ∃ answers s', Answered requests s answers s' ∧ List.Forall₂ Request.Fits requests answers
  | [], s, _ => ⟨[], s, .nil s, .nil⟩
  | _ :: _, _, ⟨answer, _, first, fits, rest⟩ =>
    have ⟨answers, s'', hrest, hfits⟩ := rest.exists_answered
    ⟨answer :: answers, s'', .cons first hrest, .cons fits hfits⟩

theorem runFrom_draw_recorded (request : Request) (r : Recorded σ) :
    request.draw.runFrom r = ((request.draw.runFrom r.source).1,
      ⟨(request.draw.runFrom r.source).2, request :: r.latestFirst⟩) := by
  cases request <;> rfl

/-- The record of a source that has answered shows the requests, the latest first. -/
theorem Answered.recorded {requests : List Request} {answers : List Nat} {s s' : σ}
    (h : Answered requests s answers s') (latestFirst : List Request) :
    Answered requests (⟨s, latestFirst⟩ : Recorded σ) answers
      ⟨s', requests.reverse ++ latestFirst⟩ := by
  induction h generalizing latestFirst with
  | nil s => exact .nil _
  | @cons request requests s s' s'' answer answers first _ ih =>
    rw [List.reverse_cons, List.append_assoc, List.singleton_append]
    refine .cons ?_ (ih (request :: latestFirst))
    rw [runFrom_draw_recorded, first]

/-- The first of the requests get the first of the answers. -/
theorem Answered.take {requests : List Request} {answers : List Nat} {s s' : σ}
    (h : Answered requests s answers s') (n : Nat) :
    ∃ s'', Answered (requests.take n) s (answers.take n) s'' := by
  induction h generalizing n with
  | nil s => exact ⟨s, by simpa using Answered.nil s⟩
  | cons first _ ih =>
    rcases n with _ | n
    · exact ⟨_, .nil _⟩
    · obtain ⟨s'', hrest⟩ := ih n
      exact ⟨s'', .cons first hrest⟩

theorem Answered.length_eq {requests : List Request} {answers : List Nat} {s s' : σ}
    (h : Answered requests s answers s') : answers.length = requests.length := by
  induction h with
  | nil s => rfl
  | cons _ _ ih => exact congrArg (· + 1) ih

end

/-- A script with an answer for each request gives these answers. -/
theorem answered_script : ∀ {requests : List Request} {answers : List Nat},
    answers.length = requests.length → ∀ more : List Nat,
      Answered requests (⟨answers ++ more⟩ : Script) answers ⟨more⟩
  | [], [], _, more => .nil _
  | request :: requests, answer :: answers, h, more =>
    have hrest : Answered requests (⟨answers ++ more⟩ : Script) answers ⟨more⟩ :=
      answered_script (by simpa using h) more
    .cons (by cases request <;> rfl) hrest

end Sortition

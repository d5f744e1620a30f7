import Mathlib.Logic.Relation

/-!
Loops, one turn at a time.

A function that does what a loop does ends because of the way it is written.  That the loop ends is
a statement about its turns: each has the result or goes on with another state, and one that reads a
place that is not there fails.  `EndsIn` says that the turns come to a result.  The rule for it is
`EndsIn.of_wellFounded`, with an invariant that each turn keeps, states that get smaller, and a
result that stays the same.
-/

namespace FlowPlan

/-- What a turn of a loop comes to. -/
inductive Turn (σ β : Type)
  | again (s : σ)
  | done (result : β)
  /-- Something is read that is not there. -/
  | fails

namespace Turn

open Relation

variable {σ β : Type} {turn : σ → Turn σ β} {P : σ → Prop} {s t : σ}

/-- Some turns lead from one state to the other. -/
def Passes (turn : σ → Turn σ β) : σ → σ → Prop := ReflTransGen fun s t => turn s = .again t

/-- The loop comes to a result, and no turn before fails. -/
inductive EndsIn (turn : σ → Turn σ β) : σ → β → Prop
  | done {s : σ} {b : β} (h : turn s = .done b) : EndsIn turn s b
  | again {s t : σ} {b : β} (h : turn s = .again t) (rest : EndsIn turn t b) : EndsIn turn s b

/-- What every turn keeps holds as long as the loop runs. -/
theorem Passes.keeps (hturn : ∀ s t, P s → turn s = .again t → P t) (h : Passes turn s t)
    (hs : P s) : P t := by
  induction h with
  | refl => exact hs
  | tail _ hstep ih => exact hturn _ _ ih hstep

theorem EndsIn.of_wellFounded {r : σ → σ → Prop} (hr : WellFounded r) {result : σ → β}
    (hturn : ∀ s, P s → turn s = .done (result s) ∨
      ∃ t, turn s = .again t ∧ P t ∧ r t s ∧ result t = result s) (hs : P s) :
    EndsIn turn s (result s) := by
  induction s using hr.induction with
  | _ s ih =>
    rcases hturn s hs with hdone | ⟨t, hagain, ht, hless, hresult⟩
    · exact .done hdone
    · exact .again hagain (hresult ▸ ih t hless ht)

end Turn
end FlowPlan

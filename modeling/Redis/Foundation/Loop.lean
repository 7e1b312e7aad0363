/-
This file has the rules for loops of computations that can stop with an error.
-/

import Redis.Foundation.Outcome

namespace Foundation

variable {E State Item : Type} {step : State → Item → Except E State} {allowed : E → Prop}

/-- The invariant of a loop may speak about the items that are done. -/
theorem foldlM_outcome_done {invariant : List Item → State → Prop} (items : List Item)
    (preserves : ∀ done item rest state, items = done ++ item :: rest → invariant done state →
      Outcome (step state item) allowed (invariant (done ++ [item])))
    (state : State) (start : invariant [] state) :
    Outcome (items.foldlM step state) allowed (invariant items) := by
  suffices loop : ∀ rest done state, items = done ++ rest → invariant done state →
      Outcome (rest.foldlM step state) allowed (invariant items) from loop items [] state rfl start
  intro rest
  induction rest with
  | nil =>
    intro done state split holds
    rw [split, List.append_nil]
    exact holds
  | cons item rest ih =>
    intro done state split holds
    apply (preserves done item rest state split holds).bind
    intro next kept
    exact ih (done ++ [item]) next (by rw [split, List.append_assoc, List.singleton_append]) kept

theorem foldlM_outcome {invariant : State → Prop} (items : List Item)
    (preserves : ∀ state item, item ∈ items → invariant state → Outcome (step state item) allowed invariant)
    (state : State) (start : invariant state) : Outcome (items.foldlM step state) allowed invariant := by
  apply @foldlM_outcome_done E State Item step allowed (fun _ => invariant) items _ state start
  intro done item rest state split holds
  apply preserves state item _ holds
  rw [split]
  simp

end Foundation

/-
This file is about links that end: every chain of links has a last element.
-/

import Mathlib.Logic.Relation
import Mathlib.Order.WellFounded

namespace Foundation

variable {A : Type} {follows follows' : A → A → Prop} {n m : A}

theorem not_reaches_of_follows (ends : WellFounded fun b a => follows a b) (step : follows n m) :
    ¬ Relation.ReflTransGen follows m n := by
  intro back
  have cycle : Relation.TransGen follows n n := Relation.TransGen.head' step back
  have reversed : Relation.TransGen (fun b a => follows a b) n n := Relation.transGen_swap.mp cycle
  exact ends.transGen.irrefl.irrefl n reversed

/-- Links still end when those of one element change, unless a new one leads back to the element. -/
theorem wellFounded_relink (ends : WellFounded fun b a => follows a b)
    (others : ∀ a b, a ≠ n → follows' a b → follows a b)
    (free : ∀ b, follows' n b → ¬ Relation.ReflTransGen follows b n) : WellFounded fun b a => follows' a b := by
  have apart : ∀ a, ¬ Relation.ReflTransGen follows a n → Acc (fun b a => follows' a b) a := by
    intro a
    induction a using ends.induction with
    | _ a ih =>
      intro away
      have other : a ≠ n := fun same => away (same ▸ Relation.ReflTransGen.refl)
      constructor
      intro b step
      exact ih b (others a b other step) fun reaches => away (reaches.head (others a b other step))
  constructor
  intro a
  induction a using ends.induction with
  | _ a ih =>
    constructor
    intro b step
    by_cases same : a = n
    · subst same
      exact apart b (free b step)
    · exact ih b (others a b same step)

end Foundation

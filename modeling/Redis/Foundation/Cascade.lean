/-
This file bounds sums in which every term is bounded by the terms above it.
-/

import Mathlib.Data.Finset.Max
import Mathlib.Algebra.BigOperators.Group.Finset.Basic

namespace Foundation

/-- When each term exceeds the sum of the terms above it by one at most, the terms at most double. -/
theorem sum_lt_two_pow_card {I : Type} [LinearOrder I] (term : I → Nat) (indices : Finset I)
    (cascade : ∀ i ∈ indices, term i ≤ ∑ j ∈ indices with i < j, term j + 1) :
    ∑ i ∈ indices, term i < 2 ^ indices.card := by
  induction indices using Finset.induction_on_min with
  | empty => simp
  | insert least rest above ih =>
    have fresh : least ∉ rest := fun inside => lt_irrefl least (above least inside)
    have first := cascade least (Finset.mem_insert_self least rest)
    rw [Finset.filter_insert, if_neg (lt_irrefl least), Finset.filter_true_of_mem above] at first
    have others : ∑ i ∈ rest, term i < 2 ^ rest.card := by
      apply ih
      intro i inside
      have bound := cascade i (Finset.mem_insert_of_mem inside)
      rw [Finset.filter_insert, if_neg (above i inside).not_gt] at bound
      exact bound
    rw [Finset.sum_insert fresh, Finset.card_insert_of_notMem fresh, pow_succ]
    omega

end Foundation

import Mathlib.Data.List.DropRight
import Mathlib.Tactic

namespace Foundation
open List
variable {A : Type} (height : A → Nat)

/-- The next element above a level with the distance to it. Without such an element the
distance is the number of elements. -/
def nextAbove (level : Nat) : List A → Option A × Nat
  | [] => (none, 0)
  | x :: rest =>
    if level < height x then (some x, 1) else ((nextAbove level rest).1, (nextAbove level rest).2 + 1)

/-- The longest prefix whose last element is above a level. -/
def lastAbove (level : Nat) (elements : List A) : List A := elements.rdropWhile fun x => decide (height x ≤ level)

variable {height} {level : Nat} {elements before low rest : List A} {x : A}

theorem nextAbove_low (all : ∀ x ∈ low, height x ≤ level) (rest : List A) : nextAbove height level (low ++ rest) =
      ((nextAbove height level rest).1, low.length + (nextAbove height level rest).2) := by
  induction low with
  | nil => simp
  | cons x low ih =>
    have short := all x mem_cons_self
    rw [cons_append, nextAbove, if_neg (by omega), ih fun y member => all y (mem_cons_of_mem x member), length_cons]
    congr 1
    omega

theorem nextAbove_all (all : ∀ x ∈ low, height x ≤ level) : nextAbove height level low = (none, low.length) := by
  have whole := nextAbove_low all []
  rwa [append_nil] at whole

theorem nextAbove_tall (all : ∀ x ∈ low, height x ≤ level) (tall : level < height x) (rest : List A) :
    nextAbove height level (low ++ x :: rest) = (some x, low.length + 1) := by
  rw [nextAbove_low all, nextAbove, if_pos tall]

theorem nextAbove_cases (height : A → Nat) (level : Nat) (elements : List A) : (∀ x ∈ elements, height x ≤ level) ∨
      ∃ low x rest, elements = low ++ x :: rest ∧ (∀ y ∈ low, height y ≤ level) ∧ level < height x := by
  induction elements with
  | nil => exact .inl nofun
  | cons y elements ih =>
    by_cases tall : level < height y
    · exact .inr ⟨[], y, elements, rfl, nofun, tall⟩
    · rcases ih with all | ⟨low, x, rest, rfl, all, tall'⟩
      · exact .inl (by simpa using ⟨by omega, all⟩)
      · exact .inr ⟨y :: low, x, rest, rfl, by simpa using ⟨by omega, all⟩, tall'⟩

theorem nextAbove_hides (member : x ∈ low) (tall : level < height x) (rest rest' : List A) :
    nextAbove height level (low ++ rest) = nextAbove height level (low ++ rest') := by
  rcases nextAbove_cases height level low with all | ⟨first, y, tail, rfl, all, tall'⟩
  · have := all x member
    omega
  · rw [append_assoc, append_assoc, cons_append, cons_append, nextAbove_tall all tall', nextAbove_tall all tall']

theorem lastAbove_split (height : A → Nat) (level : Nat) (elements : List A) :
    ∃ low, elements = lastAbove height level elements ++ low ∧ ∀ x ∈ low, height x ≤ level := by
  refine ⟨elements.rtakeWhile fun x => decide (height x ≤ level), ?_, fun x member => ?_⟩
  · exact rdropWhile_append_rtakeWhile.symm
  · simpa using mem_rtakeWhile_imp member

theorem lastAbove_last (height : A → Nat) (level : Nat) (elements : List A) :
    ∀ x ∈ (lastAbove height level elements).getLast?, level < height x := by
  intro x member
  obtain ⟨nonempty, rfl⟩ := mem_getLast?_eq_getLast member
  exact not_le.mp (mt decide_eq_true (rdropWhile_last_not _ _ nonempty))

theorem lastAbove_eq (all : ∀ x ∈ low, height x ≤ level) (last : ∀ x ∈ before.getLast?, level < height x) :
    lastAbove height level (before ++ low) = before := by
  have dropped : lastAbove height level (before ++ low) = lastAbove height level before := by
    rw [lastAbove, List.rdropWhile, reverse_append, dropWhile_append_of_pos (by simpa using all)]
    rfl
  rw [dropped, lastAbove, rdropWhile_eq_self_iff]
  intro nonempty
  simpa using last _ (getLast_mem_getLast? nonempty)

end Foundation

/- This file describes states that are overwritten cell by cell: the last write to a cell decides its value. -/
import Mathlib.Tactic

namespace Foundation

variable {I V : Type}

/-- A write gives one value to the cells it touches. -/
structure Write (I V : Type) where
  touched : I → Bool
  value : V

variable (writes : List (Write I V)) (write : Write I V) (state : I → V)

def Write.apply : I → V := fun cell => if write.touched cell then write.value else state cell

/-- The state after a sequence of writes. -/
def afterWrites : I → V := writes.foldl (fun state write => write.apply state) state

@[simp] theorem afterWrites_nil : afterWrites [] state = state := rfl

theorem afterWrites_concat : afterWrites (writes ++ [write]) state = write.apply (afterWrites writes state) := by
  simp [afterWrites]

theorem afterWrites_congr {state state' : I → V} {cell : I} (same : state cell = state' cell) :
    afterWrites writes state cell = afterWrites writes state' cell := by
  induction writes using List.reverseRecOn with
  | nil => exact same
  | append_singleton writes write ih => rw [afterWrites_concat, afterWrites_concat, Write.apply, Write.apply, ih]

variable {Item : Type} (writeOf : Item → Write I V) (kept : Item → Bool)

/-- A cell that no left out write touches does not change. -/
theorem afterWrites_filter_untouched (items : List Item) (state : I → V) {cell : I}
    (untouched : ∀ item ∈ items, kept item = false → (writeOf item).touched cell = false) :
    afterWrites ((items.filter kept).map writeOf) state cell = afterWrites (items.map writeOf) state cell := by
  induction items using List.reverseRecOn with
  | nil => rfl
  | append_singleton items item ih =>
    have before := ih fun other member => untouched other (List.mem_append_left _ member)
    rw [List.filter_append, List.map_append, List.map_append, List.map_singleton, afterWrites_concat]
    cases keeps : kept item with
    | true => simp [keeps, afterWrites_concat, Write.apply, before]
    | false => simp [keeps, Write.apply, before, untouched item (by simp) keeps]

/-- A write that a later one covers can be left out. -/
theorem afterWrites_filter_covered (items : List Item) (write : Write I V) (state : I → V)
    (covered : ∀ item ∈ items, kept item = false → ∀ cell, (writeOf item).touched cell → write.touched cell) :
    afterWrites ((items.filter kept).map writeOf ++ [write]) state = afterWrites (items.map writeOf ++ [write]) state := by
  rw [afterWrites_concat, afterWrites_concat]
  funext cell
  cases touches : write.touched cell with
  | true => simp [Write.apply, touches]
  | false =>
    have untouched : ∀ item ∈ items, kept item = false → (writeOf item).touched cell = false := by
      intro item member dropped
      by_contra touched
      simp [covered item member dropped cell (by simpa using touched)] at touches
    simp [Write.apply, afterWrites_filter_untouched writeOf kept items state untouched]

end Foundation

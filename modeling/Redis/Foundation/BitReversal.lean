/-
This file orders words by their reversed bits.
A table of `2 ^ e` buckets that masks the low `e` bits of a hash splits this order into
`2 ^ e` intervals of equal length, whatever `e` is.
-/

import Mathlib.Tactic

namespace Foundation

variable {w : Nat}
variable (word : BitVec w)

/-- The place of a word in the order of reversed bits. -/
def reversed : Nat := word.reverse.toNat

theorem reversed_lt : reversed word < 2 ^ w := word.reverse.isLt

@[simp] theorem reversed_zero : reversed (0 : BitVec w) = 0 := by
  apply Nat.eq_of_testBit_eq
  simp [reversed, BitVec.testBit_toNat, BitVec.getLsbD_reverse]

theorem reversed_reverse : reversed word.reverse = word.toNat := by
  rw [reversed, BitVec.reverse_reverse_eq]

theorem testBit_reversed (index : Nat) :
    (reversed word).testBit index = (decide (index < w) && word.getLsbD (w - 1 - index)) := by
  rw [reversed, BitVec.testBit_toNat, BitVec.getLsbD_reverse, BitVec.getMsbD_eq_getLsbD]

/-- Words with equal low bits share an interval of the reversed order. -/
theorem reversed_div_eq_iff {size : Nat} (fits : size ≤ w) (left right : BitVec w) :
    reversed left / 2 ^ (w - size) = reversed right / 2 ^ (w - size) ↔
      left.toNat % 2 ^ size = right.toNat % 2 ^ size := by
  have high : ∀ (word : BitVec w) (index : Nat), (reversed word / 2 ^ (w - size)).testBit index =
        (decide (index < size) && (word.toNat % 2 ^ size).testBit (size - 1 - index)) := by
    intro word index
    rw [Nat.testBit_div_two_pow, testBit_reversed, Nat.testBit_mod_two_pow, BitVec.testBit_toNat]
    by_cases inside : index < size
    · have place : w - 1 - (index + (w - size)) = size - 1 - index := by omega
      simp [inside, place, show index + (w - size) < w by omega, show size - 1 - index < size by omega]
    · simp [inside, show ¬ index + (w - size) < w by omega]
  constructor
  · intro same
    apply Nat.eq_of_testBit_eq
    intro index
    by_cases inside : index < size
    · have bit := congrArg (fun place => Nat.testBit place (size - 1 - index)) same
      simp only [high, show size - 1 - index < size by omega, decide_true, Bool.true_and,
        show size - 1 - (size - 1 - index) = index by omega] at bit
      exact bit
    · simp [inside]
  · intro same
    apply Nat.eq_of_testBit_eq
    intro index
    rw [high, high, same]

/-- Setting all high bits moves to the end of the interval. -/
theorem reversed_or_high {size : Nat} (fits : size ≤ w) (word high : BitVec w)
    (bits : ∀ index < w, high.getLsbD index = decide (size ≤ index)) :
    reversed (word ||| high) = reversed word / 2 ^ (w - size) * 2 ^ (w - size) + (2 ^ (w - size) - 1) := by
  have positive := Nat.two_pow_pos (w - size)
  rw [mul_comm, Nat.two_pow_add_eq_or_of_lt (by omega)]
  apply Nat.eq_of_testBit_eq
  intro index
  rw [Nat.testBit_or, Nat.testBit_two_pow_mul, Nat.testBit_div_two_pow, Nat.testBit_two_pow_sub_one,
    testBit_reversed, testBit_reversed, BitVec.getLsbD_or]
  by_cases inside : index < w
  · rw [bits _ (by omega)]
    by_cases low : index < w - size
    · simp [inside, low, show size ≤ w - 1 - index by omega]
    · simp [show ¬ size ≤ w - 1 - index by omega, show w - size ≤ index by omega]
  · simp [inside, show w - size ≤ index by omega]

/-- A start of a small interval is the start of a large one when the bits between are clear. -/
theorem dvd_reversed_iff {small large : Nat} (fits : large ≤ w) {word : BitVec w}
    (start : 2 ^ (w - large) ∣ reversed word) :
    2 ^ (w - small) ∣ reversed word ↔ ∀ index, small ≤ index → index < large → word.getLsbD index = false := by
  have bits : ∀ length, 2 ^ length ∣ reversed word ↔ ∀ index < length, (reversed word).testBit index = false := by
    intro length
    rw [Nat.dvd_iff_mod_eq_zero]
    constructor
    · intro zero index below
      have bit := Nat.testBit_mod_two_pow (reversed word) length index
      rw [zero] at bit
      simpa [below] using bit.symm
    · intro clear
      apply Nat.eq_of_testBit_eq
      intro index
      by_cases below : index < length
      · simp [clear index below]
      · simp [below]
  rw [bits]
  have low := (bits _).mp start
  constructor
  · intro clear index lower upper
    have bit := clear (w - 1 - index) (by omega)
    rw [testBit_reversed] at bit
    simpa [show w - 1 - index < w by omega, show w - 1 - (w - 1 - index) = index by omega] using bit
  · intro clear index below
    by_cases early : index < w - large
    · exact low index early
    · rw [testBit_reversed, clear _ (by omega) (by omega), Bool.and_false]

/-- A cursor at the last part of an interval moves to the next interval. -/
theorem sweep_leaves {place width ratio : Nat} (last : ratio ∣ place / width + 1) :
    (place / width + 1) * width = (place / width / ratio + 1) * (width * ratio) := by
  rw [← Nat.succ_div_of_dvd last]
  calc (place / width + 1) * width = (place / width + 1) / ratio * ratio * width := by
        rw [Nat.div_mul_cancel last]
    _ = (place / width + 1) / ratio * (width * ratio) := by ring

/-- A cursor before the last part of an interval stays in the interval. -/
theorem sweep_stays {place width ratio count : Nat} (inside : place < width * count)
    (even : ratio ∣ count) (inner : ¬ ratio ∣ place / width + 1) :
    (place / width + 1) * width < width * count := by
  have below : place / width < count := Nat.div_lt_of_lt_mul inside
  have other : place / width + 1 ≠ count := fun equal => inner (equal ▸ even)
  have positive : 0 < width := by
    rcases Nat.eq_zero_or_pos width with rfl | positive
    · simp at inside
    · exact positive
  rw [mul_comm]
  exact (Nat.mul_lt_mul_left positive).mpr (by omega)

theorem eq_of_last_part {part other ratio : Nat} (last : ratio ∣ part + 1)
    (same : other / ratio = part / ratio) (later : part ≤ other) : other = part := by
  have positive : 0 < ratio := Nat.pos_of_dvd_of_pos last (Nat.succ_pos part)
  have upper := Nat.lt_mul_div_succ other positive
  rw [same, ← Nat.succ_div_of_dvd last, Nat.mul_div_cancel' last] at upper
  omega

theorem succ_mod_of_not_dvd {part ratio : Nat} (positive : 0 < ratio) (inner : ¬ ratio ∣ part + 1) :
    (part + 1) % ratio = part % ratio + 1 := by
  have below := Nat.mod_lt part positive
  have inside : part % ratio + 1 ≠ ratio := by
    intro full
    apply inner
    rw [Nat.dvd_iff_mod_eq_zero, ← Nat.mod_add_mod, full, Nat.mod_self]
  rw [← Nat.mod_add_mod, Nat.mod_eq_of_lt (by omega)]

end Foundation

/- This file is about functions that move the bits of a word and about sums whose carry passes over some places. -/
import Mathlib.Tactic

namespace Foundation

/-- A function on words that takes every bit on its own. -/
structure OrLinear {v w : Nat} (f : BitVec v → BitVec w) : Prop where
  zero : f 0#v = 0#w
  or : ∀ x y, f (x ||| y) = f x ||| f y

namespace OrLinear

variable {u v w : Nat} {f g : BitVec v → BitVec w}

theorem id : OrLinear fun x : BitVec v => x := ⟨rfl, fun _ _ => rfl⟩

theorem comp {h : BitVec u → BitVec v} (outer : OrLinear f) (inner : OrLinear h) : OrLinear fun x => f (h x) :=
  ⟨by rw [inner.zero, outer.zero], fun x y => by rw [inner.or, outer.or]⟩

theorem sup (left : OrLinear f) (right : OrLinear g) : OrLinear fun x => f x ||| g x := by
  refine ⟨by simp [left.zero, right.zero], fun x y => ?_⟩
  rw [left.or, right.or]
  ac_rfl

theorem and (linear : OrLinear f) (b : BitVec w) : OrLinear fun x => f x &&& b :=
  ⟨by simp [linear.zero], fun x y => by rw [linear.or, BitVec.and_or_distrib_right]⟩

theorem shiftLeft (linear : OrLinear f) (s : Nat) : OrLinear fun x => f x <<< s :=
  ⟨by simp [linear.zero], fun x y => by rw [linear.or, BitVec.shiftLeft_or_distrib]⟩

theorem ushiftRight (linear : OrLinear f) (s : Nat) : OrLinear fun x => f x >>> s :=
  ⟨by simp [linear.zero], fun x y => by rw [linear.or, BitVec.ushiftRight_or_distrib]⟩

theorem setWidth : OrLinear (BitVec.setWidth w : BitVec v → BitVec w) := ⟨by simp, fun _ _ => BitVec.setWidth_or⟩

/-- A place of the result that single bits reach only from one source holds the bit of the source. -/
theorem getLsbD (linear : OrLinear f) {place source : Nat} {reached : Bool}
    (bits : ∀ i < v, (f (BitVec.twoPow v i)).getLsbD place = (reached && decide (i = source))) (x : BitVec v) :
    (f x).getLsbD place = (reached && x.getLsbD source) := by
  have low : ∀ n ≤ v, (f ((x.setWidth n).setWidth v)).getLsbD place =
      (reached && ((x.setWidth n).setWidth v).getLsbD source) := by
    intro n
    induction n with
    | zero =>
      intro _
      rw [show (x.setWidth 0).setWidth v = 0#v by ext; simp, linear.zero]
      simp
    | succ n ih =>
      intro fits
      have split : (x.setWidth (n + 1)).setWidth v =
          (x.setWidth n).setWidth v ||| if x.getLsbD n then BitVec.twoPow v n else 0#v := by
        apply BitVec.eq_of_getLsbD_eq
        intro i inside
        rcases eq_or_ne i n with rfl | other
        · cases bit : x.getLsbD i <;> simp [bit, inside, -BitVec.getLsbD_eq_getElem]
        · have next : i < n + 1 ↔ i < n := by omega
          split_ifs <;> simp [other.symm, next]
      rw [split, linear.or, BitVec.getLsbD_or, ih (by omega), BitVec.getLsbD_or]
      split_ifs
      · rw [bits n fits, Bool.and_or_distrib_left, BitVec.getLsbD_twoPow, decide_eq_true (Nat.lt_of_succ_le fits),
          Bool.true_and]
      · simp [linear.zero]
  simpa using low v le_rfl

end OrLinear

theorem eq_of_pairs {n : Nat} {x y : BitVec (2 * n)}
    (same : ∀ i < n, ∀ odd : Bool, x.getLsbD (2 * i + odd.toNat) = y.getLsbD (2 * i + odd.toNat)) : x = y := by
  apply BitVec.eq_of_getLsbD_eq
  intro place inside
  have pair := same (place / 2) (by omega) (decide (place % 2 = 1))
  rcases Nat.mod_two_eq_zero_or_one place with even | odd
  · rwa [even, show 2 * (place / 2) + (decide (0 = 1)).toNat = place from Nat.mul_div_cancel' (Nat.dvd_of_mod_eq_zero even)]
      at pair
  · rwa [odd, show 2 * (place / 2) + (decide (1 = 1)).toNat = place by simp; omega] at pair

section Carry
variable {v w n i : Nat} {x y : BitVec v} {a b : BitVec w} {c odd : Bool}
variable (pairs : ∀ i < n, x.getLsbD (2 * i + (!odd).toNat) = (!y.getLsbD (2 * i + (!odd).toNat)) ∧
  x.getLsbD (2 * i + odd.toNat) = a.getLsbD i ∧ y.getLsbD (2 * i + odd.toNat) = b.getLsbD i)

include pairs
/-- The carry of a sum passes over the places where the summands differ. -/
theorem carry_pairs (inside : i ≤ n) : BitVec.carry (2 * i) x y c = BitVec.carry i a b c := by
  induction i with
  | zero => simp [BitVec.carry_zero]
  | succ i ih =>
    obtain ⟨gap, left, right⟩ := pairs i inside
    rw [mul_add_one, BitVec.carry_succ (2 * i + 1), BitVec.carry_succ (2 * i), BitVec.carry_succ i, ih (by omega),
      ← left, ← right]
    cases odd with
    | false =>
      rw [show 2 * i + 1 = 2 * i + (!false).toNat from rfl, gap]
      cases y.getLsbD (2 * i + (!false).toNat) <;> simp [Bool.atLeastTwo]
    | true =>
      rw [show 2 * i = 2 * i + (!true).toNat from rfl, gap]
      cases y.getLsbD (2 * i + (!true).toNat) <;> simp [Bool.atLeastTwo]

/-- Such a sum is the sum of the numbers at the other places. -/
theorem getLsbD_add_pairs (inside : i < n) (long : 2 * n ≤ v) (short : n ≤ w) :
    (x + y + (BitVec.ofBool c).setWidth v).getLsbD (2 * i + odd.toNat) =
      (a + b + (BitVec.ofBool c).setWidth w).getLsbD i := by
  obtain ⟨gap, left, right⟩ := pairs i inside
  have bit := odd.toNat_lt
  rw [BitVec.getLsbD_add_add_bool (by omega), BitVec.getLsbD_add_add_bool (by omega), left, right,
    ← carry_pairs pairs inside.le]
  cases odd with
  | false => rfl
  | true =>
    rw [show 2 * i + true.toNat = 2 * i + (!true).toNat + 1 from rfl, BitVec.carry_succ, gap]
    cases y.getLsbD (2 * i + (!true).toNat) <;> simp [Bool.atLeastTwo]
end Carry
end Foundation

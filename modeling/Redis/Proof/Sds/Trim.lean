import Mathlib.Data.List.DropRight
import Redis.Proof.Sds.Edit

namespace Redis
open Foundation List

/-- The characters of a C string. -/
def cString (chars : List UInt8) : List UInt8 := chars.takeWhile (· != 0)

theorem strchr_eq (chars : List UInt8) (byte : UInt8) :
    strchr chars byte = ((cString chars).contains byte || byte == 0) := by
  induction chars with
  | nil => simp [strchr, cString]
  | cons char chars ih =>
    rw [strchr, ih]
    by_cases terminator : char = 0
    · subst terminator
      by_cases zero : byte = 0
      · simp [zero]
      · simp [cString, zero, Ne.symm zero]
    · have kept : cString (char :: chars) = char :: cString chars := by
        simp [cString, terminator]
      rw [kept, contains_cons]
      have nonzero : (char != 0) = true := bne_iff_ne.mpr terminator
      rw [nonzero, Bool.true_and, Bool.or_assoc, Bool.beq_comm]

def trimmed (drop : UInt8 → Bool) (content : List UInt8) : List UInt8 := (content.dropWhile drop).rdropWhile drop

section Loops
variable {s : Sds} {content : List UInt8} (cset : List UInt8)
  (bytes : ∀ index (inside : index < content.length), readCell s.memory (s.offset + index) = .ok content[index])
include bytes
theorem sdstrimLeft_eq {left sp : Nat} (rest : sp + left = content.length) :
    sdstrimLeft s cset left sp = .ok (sp + ((content.drop sp).takeWhile (strchr cset)).length) := by
  induction left generalizing sp with
  | zero =>
    rw [drop_of_length_le (by omega)]
    rfl
  | succ left ih =>
    have inside : sp < content.length := by omega
    rw [sdstrimLeft, bytes sp inside, ok_bind, drop_eq_getElem_cons inside, takeWhile_cons]
    split_ifs with found
    · rw [ih (by omega), length_cons, Nat.add_assoc, Nat.add_comm 1]
    · rfl

/-- The loop from the right stops at the first byte that stays at the latest. -/
theorem sdstrimRight_eq {sp ep : Nat} (start : sp < ep) (within : ep ≤ content.length)
    (stays : ∀ inside : sp < content.length, strchr cset content[sp] = false) :
    sdstrimRight s cset sp ep = .ok (sp + (((content.take ep).drop sp).rdropWhile (strchr cset)).length) := by
  induction ep with
  | zero => exact absurd start (Nat.not_lt_zero _)
  | succ ep ih =>
    have inside : ep < content.length := within
    have front : (content.take (ep + 1)).drop sp = (content.take ep).drop sp ++ [content[ep]] := by
      rw [take_succ_eq_append_getElem inside, drop_append_of_le_length (by rw [length_take]; omega)]
    have size : ((content.take ep).drop sp).length = ep - sp := by
      rw [length_drop, length_take]
      omega
    rw [sdstrimRight, front, rdropWhile_concat]
    by_cases last : sp < ep
    · rw [bytes ep inside, ok_bind]
      split_ifs with found
      · exact ih last (by omega)
      · rw [length_append, length_singleton]
        congr 1
        omega
    · have same : sp = ep := by omega
      subst same
      rw [if_neg last, stays inside, if_neg Bool.false_ne_true, length_append, length_singleton]
      congr 1
      omega

omit bytes in
theorem sdstrimRight_self (sp : Nat) : sdstrimRight s cset sp sp = .ok sp := by
  cases sp with
  | zero => rfl
  | succ sp => rw [sdstrimRight, if_neg (by omega)]
end Loops

theorem SdsLayout.readCell_eq {type : SdsType} {alloc : Nat} {payload : Memory} {content : List UInt8}
    (layout : SdsLayout type alloc payload content) (index : Nat) (inside : index < content.length) :
    readCell (sdsAt type content.length alloc payload).memory
      ((sdsAt type content.length alloc payload).offset + index) = .ok content[index] := by
  apply readCell_of
  have cell := congrArg (fun bytes => bytes[index]?) layout.take_content
  rw [getElem?_take_of_lt inside, getElem?_eq_getElem inside] at cell
  rw [sdsAt]
  dsimp only
  rw [getElem?_append_right (by rw [length_sdsHeader]; omega), length_sdsHeader, Nat.add_sub_cancel_left]
  exact cell

theorem sdstrim_strchr {s : Sds} {content : List UInt8} (holds : SdsHolds s content) (cset : List UInt8) :
    SdsYields (sdstrim s cset) (trimmed (strchr cset) content) := by
  obtain ⟨type, alloc, payload, rfl, layout⟩ := holds
  have left := sdstrimLeft_eq cset layout.readCell_eq (Nat.zero_add content.length)
  rw [Nat.zero_add, drop_zero] at left
  have split := takeWhile_append_dropWhile (p := strchr cset) (l := content)
  have rest := congrArg (List.drop (content.takeWhile (strchr cset)).length) split
  rw [drop_left] at rest
  have size := congrArg List.length split
  rw [length_append] at size
  generalize (content.takeWhile (strchr cset)).length = sp at left rest size
  have kept : trimmed (strchr cset) content = (content.drop sp).rdropWhile (strchr cset) := by rw [trimmed, rest]
  have front : (trimmed (strchr cset) content) <+: content.drop sp := kept ▸ List.rdropWhile_prefix _ _
  have right : sdstrimRight (sdsAt type content.length alloc payload) cset sp content.length =
      .ok (sp + (trimmed (strchr cset) content).length) := by
    by_cases some : sp < content.length
    · have stays : ∀ inside : sp < content.length, strchr cset content[sp] = false := by
        intro inside
        have first := head?_dropWhile_not (strchr cset) content
        rwa [rest, drop_eq_getElem_cons inside] at first
      rw [sdstrimRight_eq cset layout.readCell_eq some (Nat.le_refl _) stays, take_length, kept]
    · have none : content.drop sp = [] := drop_of_length_le (by omega)
      have all : content.length = sp := by omega
      rw [kept, none, all]
      exact sdstrimRight_self cset sp
  rw [sdstrim, layout.sdslen_eq, ok_bind, left, ok_bind, right, ok_bind]
  have within := front.length_le
  rw [length_drop] at within
  have cut := prefix_iff_eq_take.mp front
  generalize trimmed (strchr cset) content = result at within cut
  have idle : decide (sp ≠ 0) = false → sp = 0 ∨ result.length = 0 :=
    fun idle => .inl (not_not.mp (of_decide_eq_false idle))
  have held := keepSlice_yields layout (show sp + result.length ≤ content.length by omega) idle
  rw [← cut] at held
  rwa [Nat.add_sub_cancel_left]

/-- Without bytes of the set before them, more bytes to drop drop nothing more. -/
theorem dropWhile_eq_of_find {drop more : UInt8 → Bool} {content : List UInt8}
    (extends_ : ∀ byte, drop byte = true → more byte = true)
    (first : ∀ byte, content.find? (fun byte => !drop byte) = some byte → more byte = false) :
    content.dropWhile more = content.dropWhile drop := by
  induction content with
  | nil => rfl
  | cons byte content ih =>
    cases dropped : drop byte with
    | true =>
      rw [dropWhile_cons_of_pos dropped, dropWhile_cons_of_pos (extends_ byte dropped)]
      apply ih
      intro next found
      exact first next (by rw [find?_cons, dropped]; exact found)
    | false =>
      have kept := first byte (by rw [find?_cons, dropped]; rfl)
      rw [dropWhile_cons_of_neg (by rw [kept]; exact Bool.false_ne_true),
        dropWhile_cons_of_neg (by rw [dropped]; exact Bool.false_ne_true)]

/-- The first and the last byte outside the set are no terminators. -/
def TrimRegular (cset content : List UInt8) : Prop :=
  content.find? (fun byte => !(cString cset).contains byte) ≠ some 0 ∧
    content.reverse.find? (fun byte => !(cString cset).contains byte) ≠ some 0

instance (cset content : List UInt8) : Decidable (TrimRegular cset content) := inferInstanceAs (Decidable (_ ∧ _))

theorem strchr_eq_false {cset : List UInt8} {byte : UInt8} (outside : (cString cset).contains byte = false)
    (nonzero : byte ≠ 0) : strchr cset byte = false := by
  rw [strchr_eq, outside]
  exact beq_eq_false_iff_ne.mpr nonzero

theorem dropWhile_strchr {cset content : List UInt8}
    (first : content.find? (fun byte => !(cString cset).contains byte) ≠ some 0) :
    content.dropWhile (strchr cset) = content.dropWhile (cString cset).contains := by
  apply dropWhile_eq_of_find
  · intro byte member
    rw [strchr_eq, member, Bool.true_or]
  · intro byte found
    have outside := find?_some found
    rw [Bool.not_eq_true'] at outside
    exact strchr_eq_false outside fun zero => first (zero ▸ found)

theorem trimmed_strchr {cset content : List UInt8} (regular : TrimRegular cset content) :
    trimmed (strchr cset) content = trimmed (cString cset).contains content := by
  have rest : (content.dropWhile (cString cset).contains).reverse.find?
      (fun byte => !(cString cset).contains byte) =
        content.reverse.find? (fun byte => !(cString cset).contains byte) := by
    have dropped : (content.takeWhile (cString cset).contains).reverse.find?
        (fun byte => !(cString cset).contains byte) = none := by
      rw [find?_eq_none]
      intro byte member
      rw [mem_takeWhile_imp (mem_reverse.mp member)]
      exact Bool.false_ne_true
    have whole := congrArg (fun bytes => bytes.reverse.find? (fun byte => !(cString cset).contains byte))
      (takeWhile_append_dropWhile (p := (cString cset).contains) (l := content))
    rw [← whole, reverse_append, find?_append, dropped, Option.or_none]
  rw [trimmed, trimmed, dropWhile_strchr regular.1, List.rdropWhile, List.rdropWhile,
    dropWhile_strchr (rest ▸ regular.2)]

theorem sdstrim_yields {s : Sds} {content : List UInt8} (holds : SdsHolds s content) {cset : List UInt8}
    (regular : TrimRegular cset content) : SdsYields (sdstrim s cset) (trimmed (cString cset).contains content) :=
  trimmed_strchr regular ▸ sdstrim_strchr holds cset

end Redis

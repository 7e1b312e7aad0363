import Mathlib.Tactic

namespace Foundation
open List
variable {digit number : Nat}

/-- The character of a decimal digit. -/
def digitByte (digit : Nat) : UInt8 := 48 + UInt8.ofNat digit

/-- The digits of a number, most significant digit first. -/
def decimal (number : Nat) : List UInt8 :=
  if number < 10 then [digitByte number] else decimal (number / 10) ++ [digitByte (number % 10)]

/-- The digits of an integer after its sign. -/
def signedDecimal (value : Int) : List UInt8 :=
  if value < 0 then 45 :: decimal (-value).toNat else decimal value.toNat

variable (start : Nat) (char : UInt8) (chars : List UInt8)

/-- A digit string continues the number that stands before it. -/
def decimalValue : Nat := chars.foldl (fun value char => value * 10 + (char.toNat - 48)) start

def IsDigit : Prop := 48 ≤ char ∧ char ≤ 57

theorem toNat_digitByte (small : digit < 10) : (digitByte digit).toNat = 48 + digit := by
  interval_cases digit <;> rfl

theorem isDigit_digitByte (small : digit < 10) : IsDigit (digitByte digit) := by
  interval_cases digit <;> exact ⟨by decide, by decide⟩

theorem IsDigit.bounds {char : UInt8} (digit : IsDigit char) : 48 ≤ char.toNat ∧ char.toNat ≤ 57 :=
  ⟨UInt8.le_iff_toNat_le.mp digit.1, UInt8.le_iff_toNat_le.mp digit.2⟩

theorem digitByte_sub {char : UInt8} (digit : IsDigit char) : digitByte (char.toNat - 48) = char := by
  have bounds := digit.bounds
  apply UInt8.toNat_inj.mp
  rw [toNat_digitByte (by omega)]
  omega

theorem decimal_of_lt (small : number < 10) : decimal number = [digitByte number] := by
  rw [decimal, if_pos small]

theorem decimal_of_ge (large : 10 ≤ number) :
    decimal number = decimal (number / 10) ++ [digitByte (number % 10)] := by
  rw [decimal, if_neg (by omega)]

theorem decimal_pair (large : 100 ≤ number) :
    decimal number = decimal (number / 100) ++ [digitByte (number % 100 / 10), digitByte (number % 100 % 10)] := by
  rw [decimal_of_ge (by omega), decimal_of_ge (by omega), Nat.div_div_eq_div_mul]
  have tens : number / 10 % 10 = number % 100 / 10 := by omega
  rw [tens]
  simp

theorem length_decimal (count : Nat) (upper : number < 10 ^ (count + 1))
    (lower : count = 0 ∨ 10 ^ count ≤ number) : (decimal number).length = count + 1 := by
  induction count generalizing number with
  | zero => rw [decimal_of_lt (by simpa using upper)]; rfl
  | succ count ih =>
    rw [decimal_of_ge (by omega), length_append, ih (by omega) (.inr (by omega))]
    rfl

theorem length_decimal_le (count : Nat) (upper : number < 10 ^ (count + 1)) :
    (decimal number).length ≤ count + 1 := by
  induction count generalizing number with
  | zero => rw [decimal_of_lt (by simpa using upper)]; rfl
  | succ count ih =>
    by_cases small : number < 10
    · rw [decimal_of_lt small, length_singleton]
      omega
    · have power : 10 ^ (count + 1 + 1) = 10 * 10 ^ (count + 1) := pow_succ' 10 (count + 1)
      have shorter := ih (show number / 10 < 10 ^ (count + 1) by omega)
      rw [decimal_of_ge (by omega), length_append, length_singleton]
      omega

theorem isDigit_of_mem_decimal {char : UInt8} (member : char ∈ decimal number) : IsDigit char := by
  induction number using Nat.strong_induction_on with
  | _ number ih =>
    by_cases small : number < 10
    · rw [decimal_of_lt small, mem_singleton] at member
      exact member ▸ isDigit_digitByte small
    · rw [decimal_of_ge (by omega), mem_append, mem_singleton] at member
      rcases member with member | rfl
      · exact ih _ (by omega) member
      · exact isDigit_digitByte (Nat.mod_lt _ (by decide))

/-- A positive number starts with a digit from one to nine. -/
theorem decimal_eq_cons (positive : 0 < number) :
    ∃ char chars, decimal number = char :: chars ∧ 49 ≤ char ∧ char ≤ 57 := by
  induction number using Nat.strong_induction_on with
  | _ number ih =>
    by_cases small : number < 10
    · refine ⟨digitByte number, [], decimal_of_lt small, ?_, (isDigit_digitByte small).2⟩
      rw [UInt8.le_iff_toNat_le, toNat_digitByte small]
      exact Nat.add_le_add_left positive 48
    · obtain ⟨char, chars, same, bounds⟩ := ih (number / 10) (by omega) (by omega)
      exact ⟨char, chars ++ [digitByte (number % 10)], by rw [decimal_of_ge (by omega), same]; rfl, bounds⟩

/-- The first digits of a positive number are a positive number. -/
theorem exists_of_prefix_decimal (positive : 0 < number) {part : List UInt8} (some : part ≠ [])
    (before : part <+: decimal number) : ∃ smaller, 0 < smaller ∧ smaller ≤ number ∧ part = decimal smaller := by
  induction number using Nat.strong_induction_on with
  | _ number ih =>
    by_cases small : number < 10
    · rw [decimal_of_lt small] at before
      rcases prefix_concat_iff.mp (show part <+: [] ++ [digitByte number] from before) with whole | none
      · exact ⟨number, positive, le_rfl, by rw [decimal_of_lt small]; exact whole⟩
      · exact absurd (prefix_nil.mp none) some
    · rw [decimal_of_ge (by omega)] at before
      rcases prefix_concat_iff.mp before with whole | shorter
      · exact ⟨number, positive, le_rfl, by rw [decimal_of_ge (by omega)]; exact whole⟩
      · obtain ⟨smaller, lower, upper, same⟩ := ih (number / 10) (by omega) (by omega) shorter
        exact ⟨smaller, lower, by omega, same⟩

theorem decimalValue_append (char : UInt8) :
    decimalValue start (chars ++ [char]) = decimalValue start chars * 10 + (char.toNat - 48) := by
  simp [decimalValue]

theorem decimalValue_cons :
    decimalValue start (char :: chars) = decimalValue (start * 10 + (char.toNat - 48)) chars := by
  simp only [decimalValue, foldl_cons]

theorem decimalValue_decimal (number : Nat) : decimalValue 0 (decimal number) = number := by
  induction number using Nat.strong_induction_on with
  | _ number ih =>
    by_cases small : number < 10
    · have byte := toNat_digitByte small
      rw [decimal_of_lt small]
      simp only [decimalValue, foldl_cons, foldl_nil]
      omega
    · have byte := toNat_digitByte (Nat.mod_lt number (show 0 < 10 by decide))
      rw [decimal_of_ge (by omega), decimalValue_append, ih _ (by omega)]
      omega

theorem decimal_injective : Function.Injective decimal := by
  intro first second same
  rw [← decimalValue_decimal first, same, decimalValue_decimal]

theorem decimal_append_inj {first second : Nat} {char char' : UInt8} {rest rest' : List UInt8} (ends : ¬IsDigit char)
    (ends' : ¬IsDigit char') (same : decimal first ++ char :: rest = decimal second ++ char' :: rest') :
    first = second ∧ char :: rest = char' :: rest' := by
  rcases append_eq_append_iff.mp same with ⟨more, digits, behind⟩ | ⟨more, digits, behind⟩
  · cases more with
    | nil => exact ⟨decimal_injective (by simpa using digits.symm), by simpa using behind⟩
    | cons digit more =>
      cases behind
      exact absurd (@isDigit_of_mem_decimal second char (by simp [digits])) ends
  · cases more with
    | nil => exact ⟨decimal_injective (by simpa using digits), by simpa using behind.symm⟩
    | cons digit more =>
      cases behind
      exact absurd (@isDigit_of_mem_decimal first char' (by simp [digits])) ends'

theorem le_decimalValue : start ≤ decimalValue start chars := by
  induction chars generalizing start with
  | nil => exact le_rfl
  | cons char chars ih =>
    exact (show start ≤ start * 10 + (char.toNat - 48) by omega).trans (ih _)

/-- A digit string without a leading zero is the decimal form of its value. -/
theorem decimal_decimalValue {char : UInt8} {chars : List UInt8} (first : 49 ≤ char ∧ char ≤ 57)
    (digits : ∀ other ∈ chars, IsDigit other) :
    decimal (decimalValue (char.toNat - 48) chars) = char :: chars := by
  have lower : 49 ≤ char.toNat := UInt8.le_iff_toNat_le.mp first.1
  have upper : char.toNat ≤ 57 := UInt8.le_iff_toNat_le.mp first.2
  induction chars using List.reverseRecOn with
  | nil =>
    have digit : IsDigit char := ⟨UInt8.le_trans (show (48 : UInt8) ≤ 49 by decide) first.1, first.2⟩
    rw [decimalValue, foldl_nil, decimal_of_lt (by omega), digitByte_sub digit]
  | append_singleton chars last ih =>
    have bounds := (digits last (by simp)).bounds
    have head := le_decimalValue (char.toNat - 48) chars
    rw [decimalValue_append, decimal_of_ge (by omega)]
    have quotient : (decimalValue (char.toNat - 48) chars * 10 + (last.toNat - 48)) / 10 =
        decimalValue (char.toNat - 48) chars := by omega
    have remainder : (decimalValue (char.toNat - 48) chars * 10 + (last.toNat - 48)) % 10 =
        last.toNat - 48 := by omega
    rw [quotient, remainder, ih fun other member => digits other (by simp [member]),
      digitByte_sub (digits last (by simp))]
    rfl

end Foundation

import Redis.Construction.Listpack.Encoding
import Redis.Foundation.Decimal

namespace Redis
open Foundation List

theorem smallDigits10_spec {v : Nat} (small : v < 10 ^ 12) :
    ∃ count, smallDigits10 v = count + 1 ∧ v < 10 ^ (count + 1) ∧ (count = 0 ∨ 10 ^ count ≤ v) := by
  unfold smallDigits10
  split_ifs
  all_goals exact ⟨_, rfl, by omega, by omega⟩

theorem digits10_eq {v : Nat} (small : v < 10 ^ 20) : digits10 v = (decimal v).length := by
  unfold digits10
  split
  · rename_i below
    obtain ⟨count, same, upper, lower⟩ := smallDigits10_spec (show v < 10 ^ 12 from below)
    rw [same, length_decimal count upper lower]
  · rename_i above
    obtain ⟨count, same, upper, lower⟩ := smallDigits10_spec (show v / 1000000000000 < 10 ^ 12 by omega)
    have power : 10 ^ (12 + count + 1) = 1000000000000 * 10 ^ (count + 1) := by
      rw [add_assoc, pow_add]
      rfl
    have power' : 10 ^ (12 + count) = 1000000000000 * 10 ^ count := by
      rw [pow_add]
      rfl
    rw [same, length_decimal (12 + count) (by omega), add_assoc]
    rcases lower with rfl | lower <;> exact .inr (by omega)

theorem digitTable_pair : ∀ value < 100, digitTable[value * 2]? = some (digitByte (value / 10)) ∧
    digitTable[value * 2 + 1]? = some (digitByte (value % 10)) := by
  decide +kernel

theorem writeCell_of (left right : List UInt8) (old value : UInt8) {index : Nat} (start : index = left.length) :
    writeCell (left ++ old :: right) index value = .ok (left ++ value :: right) := by
  have written := writeBytes_append left [old] right [value] start rfl
  simpa [writeCell] using written

theorem writePair_of (left right : List UInt8) (old old' : UInt8) (next : Nat) {value : Nat}
    (start : next = left.length + 1) (small : value < 100) :
    writePair (left ++ old :: old' :: right) next value =
      .ok (left ++ digitByte (value / 10) :: digitByte (value % 10) :: right) := by
  obtain ⟨tens, ones⟩ := digitTable_pair value small
  have first := writeCell_of (left ++ [old]) right old' (digitByte (value % 10))
    (show next = (left ++ [old]).length by simp [start])
  have second := writeCell_of left (digitByte (value % 10) :: right) old (digitByte (value / 10))
    (show next - 1 = left.length by omega)
  simp only [append_assoc, singleton_append] at first
  simp only [writePair, readCell_of tens, readCell_of ones, ok_bind, first, second]

theorem length_decimal_pos (v : Nat) : 0 < (decimal v).length := by
  rw [decimal]
  split <;> simp

theorem pairLoop_spec (fuel value : Nat) (left suffix : List UInt8)
    (enough : (decimal value).length ≤ fuel) (room : left.length = (decimal value).length) :
    ∃ left' suffix' value', value' < 100 ∧ left'.length = (decimal value').length ∧
      pairLoop fuel (left ++ suffix) value (left.length - 1) = .ok (left' ++ suffix', value', left'.length - 1) ∧
      decimal value' ++ suffix' = decimal value ++ suffix := by
  induction fuel generalizing value left suffix with
  | zero =>
    have := length_decimal_pos value
    omega
  | succ fuel ih =>
    rw [pairLoop]
    by_cases large : value ≥ 100
    · rw [if_pos large]
      have digits := decimal_pair large
      have length := congrArg List.length digits
      simp only [length_append, length_cons, length_nil] at length
      have split : left = left.take (decimal (value / 100)).length ++
          left.drop (decimal (value / 100)).length := (take_append_drop _ _).symm
      obtain ⟨old, old', pair⟩ : ∃ old old', left.drop (decimal (value / 100)).length = [old, old'] :=
        length_eq_two.mp (by rw [length_drop]; omega)
      have front : (left.take (decimal (value / 100)).length).length = (decimal (value / 100)).length := by
        rw [length_take]
        omega
      have written := writePair_of (left.take (decimal (value / 100)).length) suffix old old'
        (left.length - 1) (by omega) (Nat.mod_lt value (show 0 < 100 by decide))
      have memory : left ++ suffix = left.take (decimal (value / 100)).length ++ old :: old' :: suffix := by
        conv_lhs => rw [split, pair]
        simp
      rw [memory, written]
      obtain ⟨left', suffix', value', small, size, looped, same⟩ := ih (value / 100)
        (left.take (decimal (value / 100)).length)
        (digitByte (value % 100 / 10) :: digitByte (value % 100 % 10) :: suffix) (by omega) front
      rw [show left.length - 1 - 2 = (left.take (decimal (value / 100)).length).length - 1 by omega]
      refine ⟨left', suffix', value', small, size, looped, ?_⟩
      rw [same, digits]
      simp
    · rw [if_neg large]
      exact ⟨left, suffix, value, by omega, room, rfl, rfl⟩

variable (dst : List UInt8)

/-- The conversion leaves the decimal digits and a terminator at the start of a large enough buffer. -/
theorem ull2string_spec {value : Nat} (small : value < 10 ^ 20)
    (room : (decimal value).length < dst.length) : ull2string dst value =
      .ok (decimal value ++ 0 :: dst.drop ((decimal value).length + 1), (decimal value).length) := by
  have positive := length_decimal_pos value
  have split : dst = dst.take (decimal value).length ++ dst.drop (decimal value).length := (take_append_drop _ _).symm
  have front : (dst.take (decimal value).length).length = (decimal value).length := by
    rw [length_take]
    omega
  obtain ⟨last, rest, tail⟩ : ∃ last rest, dst.drop (decimal value).length = last :: rest :=
    exists_cons_of_length_pos (by rw [length_drop]; omega)
  have terminated := writeCell_of (dst.take (decimal value).length) rest last 0
    (show (decimal value).length - 1 + 1 = _ by omega)
  rw [← tail, ← split] at terminated
  obtain ⟨left, suffix, value', below, size, looped, same⟩ := pairLoop_spec (decimal value).length value
    (dst.take (decimal value).length) (0 :: rest) le_rfl front
  rw [front] at looped
  rw [ull2string, digits10_eq small]
  dsimp only
  rw [if_neg (by omega), terminated, ok_bind, looped, ok_bind]
  rw [show dst.drop ((decimal value).length + 1) = rest by rw [← drop_drop, tail]; rfl, ← same]
  by_cases single : value' < 10
  · rw [decimal_of_lt single] at size ⊢
    obtain ⟨old, rfl⟩ := length_eq_one_iff.mp size
    have written := writeCell_of [] suffix old (48 + UInt8.ofNat value') (show [old].length - 1 = _ from rfl)
    rw [if_pos single]
    rw [nil_append] at written
    rw [singleton_append, written]
    rfl
  · have digits : decimal value' = [digitByte (value' / 10), digitByte (value' % 10)] := by
      rw [decimal_of_ge (by omega), decimal_of_lt (show value' / 10 < 10 by omega)]
      rfl
    rw [digits] at size ⊢
    obtain ⟨old, old', rfl⟩ := length_eq_two.mp size
    have written := writePair_of [] suffix old old' 1 rfl below
    rw [if_neg single]
    change (writePair (old :: old' :: suffix) 1 value' >>= _) = _
    rw [nil_append] at written
    rw [written]
    rfl

theorem writeCell_zero (first value : UInt8) (rest : List UInt8) :
    writeCell (first :: rest) 0 value = .ok (value :: rest) := writeCell_of [] rest first value rfl

theorem conversionError_eq : conversionError dst = .ok (dst.set 0 0, 0) := by
  cases dst with
  | nil => rfl
  | cons first rest => rw [conversionError, if_pos (by simp), writeCell_zero]; rfl

theorem ll2stringInto_eq {value : Int} (lower : -2 ^ 63 ≤ value) (upper : value < 2 ^ 64)
    (room : (signedDecimal value).length < dst.length) : ll2stringInto dst value =
      .ok (signedDecimal value ++ 0 :: dst.drop ((signedDecimal value).length + 1), (signedDecimal value).length) := by
  rw [signedDecimal] at room ⊢
  rw [ll2stringInto]
  split_ifs at room ⊢ with negative short
  · rw [length_cons] at room
    omega
  · obtain ⟨first, rest, rfl⟩ : ∃ first rest, dst = first :: rest := exists_cons_of_length_pos (by omega)
    rw [length_cons, length_cons] at room
    have positive := length_decimal_pos (-value).toNat
    rw [writeCell_zero, ok_bind]
    change (ull2string rest (-value).toNat >>= _) = _
    rw [ull2string_spec rest (show (-value).toNat < 10 ^ 20 by omega) (by omega), ok_bind, if_neg (by omega)]
    rfl
  · exact ull2string_spec dst (show value.toNat < 10 ^ 20 by omega) room

theorem ull2string_short {value : Nat} (small : value < 10 ^ 20)
    (short : dst.length ≤ (decimal value).length) : ull2string dst value = .ok (dst.set 0 0, 0) := by
  rw [ull2string, digits10_eq small, if_pos short, conversionError_eq]

theorem ll2stringInto_short {value : Int} (lower : -2 ^ 63 ≤ value) (upper : value < 2 ^ 64)
    (short : dst.length ≤ (signedDecimal value).length) :
    ∃ written, ll2stringInto dst value = .ok (written, 0) ∧ written.length = dst.length := by
  rw [signedDecimal] at short
  rw [ll2stringInto]
  split_ifs at short ⊢ with negative tiny
  · exact ⟨_, conversionError_eq dst, length_set⟩
  · obtain ⟨first, rest, rfl⟩ : ∃ first rest, dst = first :: rest := exists_cons_of_length_pos (by omega)
    rw [length_cons, length_cons] at short
    rw [writeCell_zero, ok_bind]
    change ∃ written, (ull2string rest (-value).toNat >>= _) = _ ∧ _
    rw [ull2string_short rest (show (-value).toNat < 10 ^ 20 by omega) (by omega), ok_bind]
    exact ⟨_, rfl, by simp⟩
  · exact ⟨_, ull2string_short dst (show value.toNat < 10 ^ 20 by omega) short, length_set⟩

theorem length_signedDecimal_le {value : Int} (lower : -2 ^ 63 ≤ value) (upper : value < 2 ^ 64) :
    (signedDecimal value).length ≤ 20 := by
  rw [signedDecimal]
  split
  · exact Nat.succ_le_succ (length_decimal_le 18 (by omega))
  · exact length_decimal_le 19 (by omega)

theorem ll2string_eq {value : Int} (lower : -2 ^ 63 ≤ value) (upper : value < 2 ^ 64) :
    ll2string 21 value = .ok (signedDecimal value) := by
  have length := length_signedDecimal_le lower upper
  rw [ll2string, ll2stringInto_eq _ lower upper (by rw [length_replicate]; omega), ok_bind, take_left]
  rfl

end Redis

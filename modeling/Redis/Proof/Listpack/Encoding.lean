import Redis.Construction.Listpack.Update
import Redis.Proof.Listpack.Decimal

namespace Redis.Listpack
open Foundation List

/-- The digit loop accepts the digit strings whose value is a `uint64_t`. -/
theorem digitLoop_eq_some_iff {v n : Nat} (fits : v ≤ uint64Max) (chars : List UInt8) : digitLoop v chars = some n ↔
      (∀ char ∈ chars, IsDigit char) ∧ n = decimalValue v chars ∧ n ≤ uint64Max := by
  induction chars generalizing v with
  | nil =>
    simp only [digitLoop, Option.some.injEq]
    constructor
    · rintro rfl
      exact ⟨by simp, rfl, fits⟩
    · rintro ⟨_, rfl, _⟩
      rfl
  | cons char chars ih =>
    rw [digitLoop, decimalValue_cons, forall_mem_cons]
    by_cases digit : 48 ≤ char ∧ char ≤ 57
    · have bounds := IsDigit.bounds digit
      have grows := le_decimalValue (v * 10 + (char.toNat - 48)) chars
      split_ifs with overflow overflow'
      · simp only [false_iff]
        omega
      · simp only [false_iff]
        omega
      · rw [ih (by simp only [uint64Max] at *; omega)]
        constructor
        · rintro ⟨rest, value⟩
          exact ⟨⟨digit, rest⟩, value⟩
        · rintro ⟨⟨_, rest⟩, value⟩
          exact ⟨rest, value⟩
    · rw [if_neg digit]
      simp only [reduceCtorEq, false_iff, not_and]
      exact fun all => absurd all.1 digit

/-- The parser accepts exactly the decimal forms of the positive `uint64_t` values. -/
theorem parseDigits_eq_some_iff {s : List UInt8} {n : Nat} :
    parseDigits s = some n ↔ s = decimal n ∧ 0 < n ∧ n ≤ uint64Max := by
  constructor
  · intro parsed
    cases s with
    | nil => cases parsed
    | cons char chars =>
      rw [parseDigits] at parsed
      split at parsed
      · rename_i first
        have lower : 49 ≤ char.toNat := UInt8.le_iff_toNat_le.mp first.1
        have upper : char.toNat ≤ 57 := UInt8.le_iff_toNat_le.mp first.2
        obtain ⟨digits, rfl, fits⟩ := (digitLoop_eq_some_iff (by simp only [uint64Max]; omega) chars).mp parsed
        have grows := le_decimalValue (char.toNat - 48) chars
        exact ⟨(decimal_decimalValue first digits).symm, by omega, fits⟩
      · cases parsed
  · rintro ⟨rfl, positive, fits⟩
    obtain ⟨char, chars, same, first⟩ := decimal_eq_cons positive
    have upper : char.toNat ≤ 57 := UInt8.le_iff_toNat_le.mp first.2
    have value := decimalValue_decimal n
    have digits : ∀ other ∈ chars, IsDigit other :=
      fun other member => isDigit_of_mem_decimal (same ▸ mem_cons_of_mem _ member)
    rw [same, decimalValue_cons] at value
    rw [same, parseDigits, if_pos first, digitLoop_eq_some_iff (by simp only [uint64Max]; omega) chars]
    exact ⟨digits, by rw [← value]; simp, fits⟩

theorem head_decimal_ne (n : Nat) : (decimal n).head? ≠ some 45 := by
  intro sign
  cases digits : decimal n with
  | nil => rw [digits] at sign; cases sign
  | cons char chars =>
    rw [digits] at sign
    have digit : IsDigit char := isDigit_of_mem_decimal (digits ▸ mem_cons_self)
    cases sign
    exact absurd digit.1 (by decide)

/-- A string is encoded as an integer exactly when it is the decimal form of an `int64_t`. -/
theorem lpStringToInt64_eq_some_iff {s : List UInt8} {v : Int} :
    lpStringToInt64 s = some v ↔ s = signedDecimal v ∧ -2 ^ 63 ≤ v ∧ v < 2 ^ 63 := by
  have zero : decimal 0 = [48] := decimal_of_lt (by decide)
  unfold lpStringToInt64 signedDecimal
  constructor
  · intro parsed
    split_ifs at parsed with size single sign
    · cases parsed
      exact ⟨by rw [single]; exact zero.symm, by decide, by decide⟩
    · cases digits : parseDigits s.tail with
      | none => rw [digits] at parsed; cases parsed
      | some n =>
        rw [digits] at parsed
        obtain ⟨same, positive, _⟩ := parseDigits_eq_some_iff.mp digits
        dsimp only at parsed
        split_ifs at parsed with overflow
        cases parsed
        refine ⟨?_, by omega, by omega⟩
        rw [if_pos (by omega), show (-(-(n : Int))).toNat = n by omega, ← same]
        cases s with
        | nil => cases sign
        | cons char chars => cases sign; rfl
    · cases digits : parseDigits s with
      | none => rw [digits] at parsed; cases parsed
      | some n =>
        rw [digits] at parsed
        obtain ⟨same, positive, _⟩ := parseDigits_eq_some_iff.mp digits
        dsimp only at parsed
        split_ifs at parsed with overflow
        cases parsed
        refine ⟨?_, by omega, by omega⟩
        exact same
  · rintro ⟨rfl, lower, upper⟩
    by_cases negative : v < 0
    · have digits := length_decimal_le 18 (show (-v).toNat < 10 ^ 19 by omega)
      have parsed := (parseDigits_eq_some_iff (s := decimal (-v).toNat)).mpr
        ⟨rfl, by omega, by simp only [uint64Max]; omega⟩
      rw [if_pos negative, if_neg (by simp only [length_cons, longStrSize]; omega),
        if_neg (by simp), if_pos head?_cons, tail_cons, parsed]
      dsimp only
      rw [if_neg (by omega)]
      congr 1
      omega
    · have digits := length_decimal_le 18 (show v.toNat < 10 ^ 19 by omega)
      have positive := length_decimal_pos v.toNat
      rw [if_neg negative, if_neg (by simp only [longStrSize]; omega)]
      by_cases null : v = 0
      · subst null
        rw [Int.toNat_zero, zero, if_pos rfl]
      · have parsed := (parseDigits_eq_some_iff (s := decimal v.toNat)).mpr
          ⟨rfl, by omega, by simp only [uint64Max]; omega⟩
        have several : decimal v.toNat ≠ [48] := by
          intro single
          have value := decimalValue_decimal v.toNat
          rw [single, ← zero, decimalValue_decimal] at value
          omega
        rw [if_neg several, if_neg (head_decimal_ne _), parsed]
        dsimp only
        rw [if_neg (by omega)]
        congr 1
        omega

/-- The encoded bytes decode to the string wherever they stand in a buffer. -/
structure Encodes (enc s : List UInt8) : Prop where
  size : ∀ left right, lpCurrentEncodedSizeUnsafe (left ++ enc ++ right) left.length = .ok enc.length
  get : ∀ left right, lpGet (left ++ enc ++ right) left.length = .ok s
  header : ∃ byte rest, enc = byte :: rest ∧ byte ≠ lpEof ∧ 0 < lpCurrentEncodedSizeBytes byte ∧
    lpCurrentEncodedSizeBytes byte ≤ enc.length

theorem readCell_middle (left right : List UInt8) (byte : UInt8) (rest : List UInt8) :
    readCell (left ++ (byte :: rest) ++ right) left.length = .ok byte := by
  apply readCell_of
  simp

theorem readCell_second (left right : List UInt8) (first second : UInt8) (rest : List UInt8) :
    readCell (left ++ (first :: second :: rest) ++ right) (left.length + 1) = .ok second := by
  apply readCell_of
  simp

theorem readBytes_after (left right middle : List UInt8) (byte : UInt8) (rest : List UInt8) {count : Nat}
    (size : count = middle.length) :
    readBytes (left ++ (byte :: middle ++ rest) ++ right) (left.length + 1) count = .ok middle := by
  have read := readBytes_append (left ++ [byte]) middle (rest ++ right)
    (show left.length + 1 = (left ++ [byte]).length by simp) size
  simpa using read

theorem lpEncodingOf_uint7 : ∀ n < 128, lpEncodingOf (UInt8.ofNat n) = .uint7 ∧
    (UInt8.ofNat n &&& 0x7F).toNat = n ∧ UInt8.ofNat n ≠ lpEof := by decide

theorem lpEncodingOf_str6 : ∀ n < 64, lpEncodingOf (UInt8.ofNat n ||| 0x80) = .str6 ∧
    ((UInt8.ofNat n ||| 0x80) &&& 0x3F).toNat = n ∧ UInt8.ofNat n ||| 0x80 ≠ lpEof := by decide

theorem lpEncodingOf_int13 : ∀ n < 32, lpEncodingOf (UInt8.ofNat n ||| 0xC0) = .int13 ∧
    ((UInt8.ofNat n ||| 0xC0) &&& 0x1F).toNat = n ∧ UInt8.ofNat n ||| 0xC0 ≠ lpEof := by decide

theorem lpEncodingOf_str12 : ∀ n < 16, lpEncodingOf (UInt8.ofNat n ||| 0xE0) = .str12 ∧
    ((UInt8.ofNat n ||| 0xE0) &&& 0xF).toNat = n ∧ UInt8.ofNat n ||| 0xE0 ≠ lpEof := by decide

theorem encodes_wide (marker : UInt8) (count : Nat) {v : Int}
    (reads : ∀ lp p, readCell lp p = .ok marker → lpCurrentEncodedSizeUnsafe lp p = .ok (count + 1) ∧ lpGet lp p = (do
      let bytes ← readBytes lp (p + 1) count
      ll2string lpIntbufSize (lpIntegerValue (leValue bytes) (2 ^ (8 * count - 1)) (2 ^ (8 * count) - 1))))
    (bytes : lpCurrentEncodedSizeBytes marker = 1) (other : marker ≠ lpEof) (positive : 0 < count)
    (lower : -2 ^ (8 * count - 1) ≤ v) (upper : v < 2 ^ (8 * count - 1)) (long : count ≤ 8) :
    Encodes (marker :: leBytes count (wrapNegative (8 * count) v)) (signedDecimal v) where
  size left right := by
    rw [(reads _ _ (readCell_middle left right marker _)).1]
    simp
  get left right := by
    have split : (2 : Nat) ^ (8 * count) = 2 * 2 ^ (8 * count - 1) := by
      rw [← pow_succ']
      congr 1
      omega
    have power : (256 : Nat) ^ count = 2 ^ (8 * count) := by rw [pow_mul]; rfl
    have large : (2 : Int) ^ (8 * count - 1) ≤ 2 ^ 63 := pow_le_pow_right₀ (by decide) (by omega)
    have split' : (2 : Int) ^ (8 * count) = 2 * 2 ^ (8 * count - 1) := by exact_mod_cast split
    have cast : ((2 ^ (8 * count - 1) : Nat) : Int) = 2 ^ (8 * count - 1) := by push_cast; rfl
    have wrapped : wrapNegative (8 * count) v < 256 ^ count := by
      unfold wrapNegative
      split <;> omega
    have value : lpIntegerValue (wrapNegative (8 * count) v) (2 ^ (8 * count - 1))
        (2 ^ (8 * count) - 1) = v := by
      unfold lpIntegerValue wrapNegative
      split <;> split <;> omega
    have read := readBytes_after left right (leBytes count (wrapNegative (8 * count) v)) marker []
      (length_leBytes _ _).symm
    rw [append_nil] at read
    rw [(reads _ _ (readCell_middle left right marker _)).2, read, ok_bind, leValue_leBytes_of_lt wrapped, value]
    exact ll2string_eq (by omega) (by omega)
  header := ⟨marker, _, rfl, other, by omega, by rw [bytes]; simp⟩

theorem encodes_integer {v : Int} (lower : -2 ^ 63 ≤ v) (upper : v < 2 ^ 63) :
    Encodes (lpEncodeIntegerGetType v) (signedDecimal v) := by
  unfold lpEncodeIntegerGetType
  split_ifs with small short word medium long
  · obtain ⟨kind, low, other⟩ := lpEncodingOf_uint7 v.toNat (by omega)
    refine ⟨fun left right => ?_, fun left right => ?_, _, [], rfl, other, ?_, ?_⟩
    · rw [lpCurrentEncodedSizeUnsafe, readCell_middle, ok_bind, kind]
      rfl
    · rw [lpGet, readCell_middle, ok_bind, kind]
      rw [low, lpIntegerValue, if_neg (by simp only [uint64Max]; omega), Int.toNat_of_nonneg small.1]
      exact ll2string_eq (by omega) (by omega)
    all_goals simp [lpCurrentEncodedSizeBytes, kind]
  · have range : wrapNegative 13 v < 8192 := by
      unfold wrapNegative
      split <;> omega
    obtain ⟨kind, low, other⟩ := lpEncodingOf_int13 (wrapNegative 13 v / 256) (by omega)
    have value : lpIntegerValue (wrapNegative 13 v / 256 * 256 + (UInt8.ofNat (wrapNegative 13 v)).toNat)
        (2 ^ 12) 8191 = v := by
      rw [UInt8.toNat_ofNat', show wrapNegative 13 v / 256 * 256 + wrapNegative 13 v % 2 ^ 8 =
        wrapNegative 13 v by omega]
      unfold lpIntegerValue wrapNegative
      split <;> split <;> omega
    refine ⟨fun left right => ?_, fun left right => ?_, _, _, rfl, other, ?_, ?_⟩
    · rw [lpCurrentEncodedSizeUnsafe, readCell_middle, ok_bind, kind]
      rfl
    · rw [lpGet, readCell_middle, ok_bind, kind]
      dsimp only
      rw [readCell_second, ok_bind, low, value]
      exact ll2string_eq (by omega) (by omega)
    all_goals simp [lpCurrentEncodedSizeBytes, kind]
  · refine encodes_wide 0xF1 2 ?_ (by decide) (by decide) (by decide) (by omega) (by omega) (by decide)
    intro lp p read
    rw [lpCurrentEncodedSizeUnsafe, lpGet, read]
    exact ⟨rfl, rfl⟩
  · refine encodes_wide 0xF2 3 ?_ (by decide) (by decide) (by decide) (by omega) (by omega) (by decide)
    intro lp p read
    rw [lpCurrentEncodedSizeUnsafe, lpGet, read]
    exact ⟨rfl, rfl⟩
  · refine encodes_wide 0xF3 4 ?_ (by decide) (by decide) (by decide) (by omega) (by omega) (by decide)
    intro lp p read
    rw [lpCurrentEncodedSizeUnsafe, lpGet, read]
    exact ⟨rfl, rfl⟩
  · refine encodes_wide 0xF4 8 ?_ (by decide) (by decide) (by decide) (by omega) (by omega) (by decide)
    intro lp p read
    rw [lpCurrentEncodedSizeUnsafe, lpGet, read]
    exact ⟨rfl, rfl⟩

theorem encodes_string {s : List UInt8} (fits : 5 + s.length < 2 ^ 32) : Encodes (lpEncodeString s) s := by
  unfold lpEncodeString
  split_ifs with short medium
  · obtain ⟨kind, low, other⟩ := lpEncodingOf_str6 s.length short
    refine ⟨fun left right => ?_, fun left right => ?_, _, _, rfl, other, ?_, ?_⟩
    · rw [lpCurrentEncodedSizeUnsafe, readCell_middle, ok_bind, kind]
      rw [low, add_comm]
      rfl
    · rw [lpGet, readCell_middle, ok_bind, kind]
      have read := readBytes_after left right s (UInt8.ofNat s.length ||| 0x80) [] low
      rwa [append_nil] at read
    all_goals simp [lpCurrentEncodedSizeBytes, kind]
  · obtain ⟨kind, low, other⟩ := lpEncodingOf_str12 (s.length / 256) (by omega)
    have length : s.length / 256 * 256 + (UInt8.ofNat s.length).toNat = s.length := by
      rw [UInt8.toNat_ofNat']
      omega
    refine ⟨fun left right => ?_, fun left right => ?_, _, _, rfl, other, ?_, ?_⟩
    · rw [lpCurrentEncodedSizeUnsafe, readCell_middle, ok_bind, kind]
      dsimp only
      rw [readCell_second, ok_bind, low, length, add_comm]
      rfl
    · rw [lpGet, readCell_middle, ok_bind, kind]
      dsimp only
      rw [readCell_second, ok_bind, low, length]
      have read := readBytes_append (left ++ [UInt8.ofNat (s.length / 256) ||| 0xE0, UInt8.ofNat s.length])
        s right (show left.length + 2 = _ by simp) rfl
      simpa using read
    all_goals simp [lpCurrentEncodedSizeBytes, kind]
  · have length : leValue (leBytes 4 s.length) = s.length := leValue_leBytes_of_lt (by omega)
    have total : (0xF0 :: leBytes 4 s.length ++ s).length = 5 + s.length := by
      simp only [length_append, length_cons, length_leBytes]
    have five : lpCurrentEncodedSizeBytes 0xF0 = 5 := by decide
    refine ⟨fun left right => ?_, fun left right => ?_, 0xF0, _, rfl, by decide, by decide, ?_⟩
    · rw [lpCurrentEncodedSizeUnsafe, cons_append, readCell_middle, ok_bind, ← cons_append]
      rw [readBytes_after left right (leBytes 4 s.length) 0xF0 s (length_leBytes _ _).symm, ok_bind,
        length, Nat.mod_eq_of_lt fits, total]
      rfl
    · rw [lpGet, cons_append, readCell_middle, ← cons_append]
      change (readBytes _ _ 4 >>= _) = _
      rw [readBytes_after left right (leBytes 4 s.length) 0xF0 s (length_leBytes _ _).symm, ok_bind, length]
      have read := readBytes_append (left ++ 0xF0 :: leBytes 4 s.length) s right
        (show left.length + 5 = _ by simp) rfl
      simpa using read
    · rw [total]
      omega

end Redis.Listpack

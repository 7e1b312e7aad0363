import Redis.Proof.Listpack.Encoding

namespace Redis.Listpack
open Foundation
variable {lp : Memory}

theorem readCell_ok {A : Type} {cells : List A} {index : Nat} (within : index < cells.length) :
    readCell cells index = .ok cells[index] :=
  readCell_of (List.getElem?_eq_getElem within)

theorem decodeBacklenLoop_ok (shifts : List Nat) {p val : Nat} (within : p < lp.length)
    (room : shifts.length ≤ p + 1) (narrow : ∀ shift ∈ shifts, shift ≤ 28) (small : val < 2 ^ 64) :
    ∃ v, decodeBacklenLoop lp shifts p val = .ok v ∧ v < 2 ^ 64 := by
  induction shifts generalizing p val with
  | nil => exact ⟨uint64Max, rfl, by decide⟩
  | cons shift shifts ih =>
    have term : (lp[p] &&& 127).toNat <<< shift < 2 ^ 64 := by
      have byte : (lp[p] &&& 127).toNat < 2 ^ 8 := UInt8.toNat_lt _
      have bits := narrow shift (by simp)
      rw [Nat.shiftLeft_eq]
      calc (lp[p] &&& 127).toNat * 2 ^ shift < 2 ^ 8 * 2 ^ shift :=
            Nat.mul_lt_mul_of_pos_right byte (Nat.two_pow_pos shift)
        _ ≤ 2 ^ 8 * 2 ^ 28 := Nat.mul_le_mul_left _ (Nat.pow_le_pow_right (by decide) bits)
        _ ≤ 2 ^ 64 := by decide
    have next := Nat.or_lt_two_pow small term
    rw [decodeBacklenLoop, readCell_ok within, ok_bind]
    split_ifs with stop last before
    · exact ⟨_, rfl, next⟩
    · exact ⟨_, rfl, by decide⟩
    · have count := List.length_pos_of_ne_nil last
      rw [List.length_cons] at room
      omega
    · rw [List.length_cons] at room
      exact ih (by omega) (by omega) (fun shift member => narrow shift (by simp [member])) next

theorem lpDecodeBacklen_ok {p : Nat} (within : p < lp.length) (room : 4 ≤ p) :
    ∃ v, lpDecodeBacklen lp p = .ok v ∧ v < 2 ^ 64 :=
  decodeBacklenLoop_ok [0, 7, 14, 21, 28] within (by simpa using room) (by decide) (by decide)

theorem decodeBacklenLoop_mod (shifts : List Nat) {p val v : Nat} (high : ∀ shift ∈ shifts, 7 ≤ shift)
    (decoded : decodeBacklenLoop lp shifts p val = .ok v) : v = uint64Max ∨ v % 2 ^ 7 = val % 2 ^ 7 := by
  induction shifts generalizing p val with
  | nil =>
    cases decoded
    exact .inl rfl
  | cons shift shifts ih =>
    rw [decodeBacklenLoop] at decoded
    cases read : readCell lp p with
    | error fault => rw [read] at decoded; cases decoded
    | ok byte =>
      have term : ((byte &&& 127).toNat <<< shift) % 2 ^ 7 = 0 := by
        rw [Nat.shiftLeft_eq]
        exact Nat.mod_eq_zero_of_dvd
          (Dvd.dvd.mul_left (pow_dvd_pow 2 (high shift (by simp))) _)
      have same : (val ||| ((byte &&& 127).toNat <<< shift)) % 2 ^ 7 = val % 2 ^ 7 := by
        rw [Nat.or_mod_two_pow, term, Nat.or_zero]
      rw [read, ok_bind] at decoded
      split_ifs at decoded with stop last before
      · cases decoded
        exact .inr same
      · cases decoded
        exact .inl rfl
      · cases (show (Except.error Fault.outOfBounds : Checked Nat) = .ok v from decoded)
      · rw [← same]
        exact ih (fun shift member => high shift (by simp [member])) decoded

/-- The last byte of a backward length holds the low seven bits. -/
theorem lpDecodeBacklen_mod {p v : Nat} {byte : UInt8} (read : lp[p]? = some byte)
    (decoded : lpDecodeBacklen lp p = .ok v) : v = uint64Max ∨ v % 2 ^ 7 = byte.toNat % 2 ^ 7 := by
  rw [lpDecodeBacklen, decodeBacklenLoop, readCell_of read, ok_bind] at decoded
  have low : (0 ||| ((byte &&& 127).toNat <<< 0)) = byte.toNat % 2 ^ 7 := by
    rw [Nat.zero_or]
    exact Nat.and_two_pow_sub_one_eq_mod byte.toNat 7
  dsimp only at decoded
  rw [low] at decoded
  rw [if_neg (show [7, 14, 21, 28] ≠ [] by decide)] at decoded
  split_ifs at decoded with stop before
  · cases decoded
    exact .inr (Nat.mod_mod _ _)
  · cases (show (Except.error Fault.outOfBounds : Checked Nat) = .ok v from decoded)
  · rcases decodeBacklenLoop_mod [7, 14, 21, 28] (by decide) decoded with top | same
    · exact .inl top
    · exact .inr (same.trans (Nat.mod_mod _ _))

theorem length_lpEncodeBacklen (l : Nat) : 1 ≤ (lpEncodeBacklen l).length ∧ (lpEncodeBacklen l).length ≤ 5 := by
  unfold lpEncodeBacklen
  split_ifs <;> simp

theorem lpCurrentEncodedSizeUnsafe_ok {p : Nat} {byte : UInt8} (read : lp[p]? = some byte)
    (within : p + lpCurrentEncodedSizeBytes byte < lp.length) :
    ∃ size, lpCurrentEncodedSizeUnsafe lp p = .ok size ∧ size < 2 ^ 32 := by
  have small : ∀ other : UInt8, other.toNat < 2 ^ 8 := UInt8.toNat_lt
  rw [lpCurrentEncodedSizeUnsafe, readCell_of read, ok_bind]
  unfold lpCurrentEncodedSizeBytes at within
  cases kind : lpEncodingOf byte <;> rw [kind] at within
  case str6 => exact ⟨_, rfl, by have := small (byte &&& 0x3F); omega⟩
  case str12 =>
    dsimp only at within ⊢
    have next : p + 1 < lp.length := by omega
    rw [readCell_ok next]
    exact ⟨_, rfl, by have := small (byte &&& 0xF); have := small lp[p + 1]; omega⟩
  case str32 =>
    dsimp only at within ⊢
    rw [readBytes_of (show p + 1 + 4 ≤ lp.length by omega)]
    exact ⟨_, rfl, Nat.mod_lt _ (by decide)⟩
  all_goals exact ⟨_, rfl, by decide⟩

/-- What an accepted entry guarantees. -/
structure EntryAt (lp : Memory) (bytes p q : Nat) : Prop where
  valid : lpValidateNext lp p bytes = .ok (some (some q))
  lower : lpHdrSize ≤ p
  upper : q < bytes
  header : ∃ byte, lp[p]? = some byte ∧ byte ≠ lpEof ∧ 0 < lpCurrentEncodedSizeBytes byte ∧
    p + lpCurrentEncodedSizeBytes byte < bytes
  size : ∃ size, lpCurrentEncodedSizeUnsafe lp p = .ok size ∧ size < 2 ^ 32 ∧
    q = p + (size + (lpEncodeBacklen size).length) ∧ lpDecodeBacklen lp (q - 1) = .ok size

/-- The validation of one entry stays inside the buffer, whatever the bytes are. -/
theorem lpValidateNext_spec (lp : Memory) (p : Nat) : ∃ result, lpValidateNext lp p lp.length = .ok result ∧
      match result with
      | none => True
      | some none => lp[p]? = some lpEof
      | some (some q) => EntryAt lp lp.length p q := by
  obtain ⟨checked, valid⟩ : ∃ checked, lpValidateNext lp p lp.length = checked := ⟨_, rfl⟩
  have steps := valid.symm
  rw [lpValidateNext] at steps
  by_cases outside : outOfRange lp.length p
  · rw [if_pos outside] at steps
    exact ⟨none, valid.trans steps, trivial⟩
  have inside := outside
  simp only [outOfRange, not_or, not_lt, not_le] at inside
  have read := List.getElem?_eq_getElem inside.2
  generalize lp[p] = byte at read
  rw [if_neg outside, readCell_of read, ok_bind] at steps
  by_cases eof : byte = lpEof
  · rw [if_pos eof] at steps
    exact ⟨some none, valid.trans steps, eof ▸ read⟩
  rw [if_neg eof] at steps
  dsimp only at steps
  by_cases unknown : lpCurrentEncodedSizeBytes byte = 0
  · rw [if_pos unknown] at steps
    exact ⟨none, valid.trans steps, trivial⟩
  rw [if_neg unknown] at steps
  by_cases short : outOfRange lp.length (p + lpCurrentEncodedSizeBytes byte)
  · rw [if_pos short] at steps
    exact ⟨none, valid.trans steps, trivial⟩
  have enough := short
  simp only [outOfRange, not_or, not_le] at enough
  obtain ⟨size, sized, small⟩ := lpCurrentEncodedSizeUnsafe_ok read enough.2
  rw [if_neg short, sized, ok_bind] at steps
  by_cases long : outOfRange lp.length (p + (size + (lpEncodeBacklen size).length))
  · rw [if_pos long] at steps
    exact ⟨none, valid.trans steps, trivial⟩
  have fits := long
  simp only [outOfRange, not_or, not_le, lpHdrSize] at fits inside
  obtain ⟨prevlen, decoded, bounded⟩ := lpDecodeBacklen_ok
    (show p + (size + (lpEncodeBacklen size).length) - 1 < lp.length by omega) (by omega)
  rw [if_neg long, decoded, ok_bind] at steps
  by_cases differs : (prevlen + (lpEncodeBacklen size).length) % 2 ^ 64 ≠ size + (lpEncodeBacklen size).length
  · rw [if_pos differs] at steps
    exact ⟨none, valid.trans steps, trivial⟩
  · rw [if_neg differs] at steps
    have equal : prevlen = size := by omega
    refine ⟨_, valid.trans steps, valid.trans steps, inside.1, fits.2, ⟨byte, read, eof, by omega, enough.2⟩, size, sized, small,
      rfl, ?_⟩
    rw [← equal] at decoded ⊢
    exact decoded

end Redis.Listpack

import Redis.Proof.Listpack.Walk

namespace Redis.Listpack
open Foundation List
variable {lp : Memory}

/-- A declared length near `2 ^ 32` has high bytes. -/
theorem high_bytes_of_leValue {a b c d : UInt8} (wraps : 2 ^ 32 ≤ 5 + leValue [a, b, c, d]) :
    251 ≤ a.toNat ∧ b.toNat = 255 ∧ c.toNat = 255 ∧ d.toNat = 255 ∧
      leValue [a, b, c, d] = a.toNat + (2 ^ 32 - 2 ^ 8) := by
  have smallA : a.toNat < 2 ^ 8 := a.toNat_lt
  have smallB : b.toNat < 2 ^ 8 := b.toNat_lt
  have smallC : c.toNat < 2 ^ 8 := c.toNat_lt
  have smallD : d.toNat < 2 ^ 8 := d.toNat_lt
  simp only [leValue] at wraps ⊢
  omega

theorem take_four {p : Nat} (within : p + 5 ≤ lp.length) :
    (lp.drop (p + 1)).take 4 = [lp[p + 1], lp[p + 2], lp[p + 3], lp[p + 4]] := by
  rw [drop_eq_getElem_cons (by omega), drop_eq_getElem_cons (by omega),
    drop_eq_getElem_cons (by omega), drop_eq_getElem_cons (by omega)]
  rfl

/-- The size of an accepted string does not wrap around.
A wrapped size would put the backward length on a byte of the header that does not match it. -/
theorem EntryAt.size_str32 {bytes p q : Nat} (entry : EntryAt lp bytes p q)
    (read : lp[p]? = some 0xF0) (within : p + 5 ≤ lp.length) :
    5 + leValue ((lp.drop (p + 1)).take 4) < 2 ^ 32 := by
  by_contra long
  obtain ⟨size, sized, small, same, decoded⟩ := entry.size
  rw [take_four within] at long
  obtain ⟨lowA, highB, highC, highD, value⟩ := high_bytes_of_leValue (not_lt.mp long)
  have smallA : lp[p + 1].toNat < 2 ^ 8 := UInt8.toNat_lt _
  have wrapped : size = lp[p + 1].toNat - 251 := by
    rw [lpCurrentEncodedSizeUnsafe, readCell_of read] at sized
    rw [readBytes_of (by omega), take_four within] at sized
    have equal := Except.ok.inj sized
    omega
  have single : (lpEncodeBacklen size).length = 1 := by
    rw [lpEncodeBacklen, if_pos (by omega)]
    rfl
  have last : q - 1 = p + size := by omega
  have byte : ∃ byte : UInt8, lp[p + size]? = some byte ∧ byte.toNat % 2 ^ 7 ≠ size := by
    have cases : size = 0 ∨ size = 1 ∨ size = 2 ∨ size = 3 ∨ size = 4 := by omega
    rcases cases with rfl | rfl | rfl | rfl | rfl
    · exact ⟨_, read, by decide⟩
    all_goals exact ⟨_, getElem?_eq_getElem (by omega), by omega⟩
  obtain ⟨byte, found, differs⟩ := byte
  rw [last] at decoded
  rcases lpDecodeBacklen_mod found decoded with top | low
  · rw [top, uint64Max] at small
    omega
  · omega

theorem ll2string_lpIntegerValue {uval negstart negmax : Nat} (small : uval < 2 ^ 64)
    (upper : negmax - uval < 2 ^ 63 ∨ uval < negstart) :
    ∃ s, ll2string lpIntbufSize (lpIntegerValue uval negstart negmax) = .ok s := by
  refine ⟨_, ll2string_eq ?_ ?_⟩
  all_goals
    unfold lpIntegerValue
    split <;> omega

theorem lpGet_wide {p count : Nat} (within : p + 1 + count ≤ lp.length) (narrow : count ≤ 8)
    (positive : 0 < count) : ∃ s, (do
      let bytes ← readBytes lp (p + 1) count
      ll2string lpIntbufSize (lpIntegerValue (leValue bytes) (2 ^ (8 * count - 1))
        (2 ^ (8 * count) - 1)) : Checked (List UInt8)) = .ok s := by
  rw [readBytes_of within]
  have value := leValue_lt ((lp.drop (p + 1)).take count)
  have length : ((lp.drop (p + 1)).take count).length = count := by
    rw [length_take, length_drop]
    omega
  rw [length, show (256 : Nat) = 2 ^ 8 from rfl, ← pow_mul] at value
  have large : (2 : Nat) ^ (8 * count) ≤ 2 ^ 64 := Nat.pow_le_pow_right (by decide) (by omega)
  have split : (2 : Nat) ^ (8 * count) = 2 * 2 ^ (8 * count - 1) := by
    rw [← pow_succ']
    congr 1
    omega
  exact ll2string_lpIntegerValue (by omega) (by omega)

theorem eq_marker_of_str32 {byte : UInt8} (kind : lpEncodingOf byte = .str32) : byte = 0xF0 := by
  unfold lpEncodingOf at kind
  split_ifs at kind
  assumption

theorem EntryAt.get {bytes p q : Nat} (entry : EntryAt lp bytes p q) (within : bytes ≤ lp.length) :
    ∃ s, lpGet lp p = .ok s := by
  obtain ⟨byte, read, other, known, room⟩ := entry.header
  obtain ⟨size, sized, _, same, _⟩ := entry.size
  have upper := entry.upper
  have bounds : byte.toNat < 2 ^ 8 := byte.toNat_lt
  unfold lpCurrentEncodedSizeBytes at known room
  rw [lpCurrentEncodedSizeUnsafe, readCell_of read, ok_bind] at sized
  rw [lpGet, readCell_of read, ok_bind]
  cases kind : lpEncodingOf byte <;> rw [kind] at sized known room <;> dsimp only at sized known room ⊢
  case uint7 =>
    have low : (byte &&& 0x7F).toNat < 2 ^ 8 := UInt8.toNat_lt _
    exact ll2string_lpIntegerValue (by omega) (.inr (by rw [uint64Max]; omega))
  case str6 =>
    have length := Except.ok.inj sized
    exact ⟨_, readBytes_of (by omega)⟩
  case int13 =>
    have low : (byte &&& 0x1F).toNat ≤ 31 := by
      exact Nat.and_le_right
    have next : p + 1 < lp.length := by omega
    have second : lp[p + 1].toNat < 2 ^ 8 := UInt8.toNat_lt _
    rw [readCell_ok next]
    exact ll2string_lpIntegerValue (by omega) (by omega)
  case int16 | int24 | int32 | int64 =>
    have length := Except.ok.inj sized
    exact lpGet_wide (by omega) (by decide) (by decide)
  case str12 =>
    rw [readCell_ok (show p + 1 < lp.length by omega)] at sized ⊢
    have length := Except.ok.inj sized
    exact ⟨_, readBytes_of (by omega)⟩
  case str32 =>
    have marker := eq_marker_of_str32 kind
    have fits := entry.size_str32 (marker ▸ read) (by omega)
    rw [readBytes_of (by omega)] at sized ⊢
    have length := Except.ok.inj sized
    exact ⟨_, readBytes_of (by omega)⟩
  case eof => exact ll2string_lpIntegerValue (by omega) (.inr (by rw [uint64Max]; omega))
  case invalid => omega

/-- The validation loop ends, and what it accepts is a chain that ends at an end mark. -/
theorem validateLoop_spec {fuel p count : Nat} (within : p < lp.length) (enough : lp.length ≤ p + fuel)
    (small : count < 2 ^ 32) :
    ∃ result, validateLoop lp lp.length fuel (some p) count = .ok result ∧
      ∀ stop final, result = some (stop, final) → ∃ offsets q, stop = some q ∧
        Chain lp lp.length p offsets q ∧ readCell lp q = .ok lpEof ∧
        final = (count + offsets.length) % 2 ^ 32 := by
  induction fuel generalizing p count with
  | zero => omega
  | succ fuel ih =>
    have read := readCell_ok within
    rw [validateLoop, read, ok_bind]
    by_cases eof : lp[p] = lpEof
    · refine ⟨some (some p, count), by rw [if_pos eof]; rfl, ?_⟩
      rintro _ _ ⟨⟩
      exact ⟨[], p, rfl, .nil p, by rw [read, eof], by rw [length_nil, Nat.add_zero, Nat.mod_eq_of_lt small]⟩
    rw [if_neg eof]
    obtain ⟨next, validated, meaning⟩ := lpValidateNext_spec lp p
    rw [validated]
    match next, meaning with
    | none, _ => exact ⟨none, rfl, by rintro _ _ ⟨⟩⟩
    | some none, found =>
      rw [getElem?_eq_getElem within] at found
      exact absurd (Option.some.inj found) eof
    | some (some q), entry =>
      have order := entry.lt
      obtain ⟨result, returned, accepted⟩ := ih entry.upper (by omega) (Nat.mod_lt (count + 1) (by decide))
      refine ⟨result, returned, fun stop final same => ?_⟩
      obtain ⟨offsets, last, stopped, chain, mark, counted⟩ := accepted stop final same
      refine ⟨p :: offsets, last, stopped, .cons entry chain, mark, ?_⟩
      rw [length_cons]
      omega

theorem lpGetTotalBytes_ok (within : lpHdrSize ≤ lp.length) :
    ∃ bytes, lpGetTotalBytes lp = .ok bytes ∧ bytes < 2 ^ 32 := by
  rw [lpHdrSize] at within
  have value := leValue_lt ((lp.drop 0).take 4)
  have length : ((lp.drop 0).take 4).length = 4 := by
    rw [length_take, length_drop]
    omega
  rw [length] at value
  rw [lpGetTotalBytes, readBytes_of (by omega)]
  exact ⟨_, rfl, value⟩

theorem lpGetNumElements_ok (within : lpHdrSize ≤ lp.length) : ∃ numele, lpGetNumElements lp = .ok numele := by
  rw [lpHdrSize] at within
  rw [lpGetNumElements, readBytes_of (by omega)]
  exact ⟨_, rfl⟩

/-- Deep validation never leaves the buffer, and it accepts only linked listpacks. -/
theorem lpValidateIntegrity_spec (lp : Memory) :
    Outcome (lpValidateIntegrity lp lp.length true) (fun _ => False) fun accepted =>
      accepted = true → ∃ offsets, Linked lp lp.length offsets ∧ CountedBy lp offsets.length := by
  rw [lpValidateIntegrity]
  by_cases short : lp.length < lpHdrSize + 1
  · rw [if_pos short]
    rintro ⟨⟩
  have header : lpHdrSize ≤ lp.length := by omega
  obtain ⟨bytes, total, bounded⟩ := lpGetTotalBytes_ok header
  obtain ⟨numele, elements⟩ := lpGetNumElements_ok header
  rw [if_neg short, total, ok_bind]
  by_cases other : bytes ≠ lp.length
  · rw [if_pos other]
    rintro ⟨⟩
  obtain rfl : bytes = lp.length := not_not.mp other
  have read := readCell_ok (show lp.length - 1 < lp.length by omega)
  rw [if_neg other, read, ok_bind]
  by_cases open' : lp[lp.length - 1] ≠ lpEof
  · rw [if_pos open']
    rintro ⟨⟩
  have eof : lp[lp.length - 1] = lpEof := not_not.mp open'
  obtain ⟨result, looped, accepted⟩ := validateLoop_spec (show lpHdrSize < lp.length by omega)
    (show lp.length ≤ lpHdrSize + lp.length by omega) (show 0 < 2 ^ 32 by decide)
  rw [if_neg open', elements, ok_bind, looped, ok_bind]
  match result, accepted with
  | none, _ => rintro ⟨⟩
  | some (stop, count), accepted =>
    obtain ⟨offsets, q, stopped, chain, mark, counted⟩ := accepted stop count rfl
    dsimp only
    by_cases early : stop ≠ some (lp.length - 1)
    · rw [if_pos early]
      rintro ⟨⟩
    have final : q = lp.length - 1 := Option.some.inj (stopped.symm.trans (not_not.mp early))
    rw [if_neg early]
    by_cases miscounted : numele ≠ lpHdrNumeleUnknown ∧ numele ≠ count
    · rw [if_pos miscounted]
      rintro ⟨⟩
    rw [if_neg miscounted]
    intro _
    subst final
    have length := chain.le
    refine ⟨offsets, ⟨total, chain, by rw [read, eof], le_rfl, by omega⟩, numele, elements, ?_⟩
    omega

/-- A listpack that deep validation accepts is safe to walk and to read. -/
theorem lpValidateIntegrity_safe (lp : Memory) :
    Outcome (lpValidateIntegrity lp lp.length true) (fun _ => False) fun accepted =>
      accepted = true → ∃ offsets, walkForward lp = .ok offsets ∧
        walkBackward lp = .ok offsets.reverse ∧ (∀ p ∈ offsets, ∃ s, lpGet lp p = .ok s) ∧
        ∃ numele, lpGetNumElements lp = .ok numele ∧ (numele ≠ lpHdrNumeleUnknown → offsets.length = numele) := by
  refine (lpValidateIntegrity_spec lp).mono fun accepted spec holds => ?_
  obtain ⟨offsets, linked, numele, read, known⟩ := spec holds
  refine ⟨offsets, linked.walkForward, linked.walkBackward, fun p member => ?_, numele, read, ?_⟩
  · obtain ⟨q, entry⟩ := linked.chain.entry_of_mem member
    exact entry.get le_rfl
  · intro counted
    exact (known.resolve_left counted).symm

/-- An accepted buffer with a small integer and a string of two bytes. -/
example : lpValidateIntegrity [13, 0, 0, 0, 2, 0, 5, 1, 0x82, 97, 98, 3, 0xFF] 13 true = .ok true := by
  decide +kernel

/-- A declared length of `2 ^ 32 - 1` is rejected. -/
example : lpValidateIntegrity [12, 0, 0, 0, 1, 0, 0xF0, 255, 255, 255, 255, 0xFF] 12 true = .ok false := by
  decide +kernel

theorem Chain.validateLoop {bytes p stop fuel count : Nat} {rest : List Nat} (chain : Chain lp bytes p rest stop)
    (eof : readCell lp stop = .ok lpEof) (enough : rest.length ≤ fuel) (small : count + rest.length < 2 ^ 32) :
    validateLoop lp bytes fuel (some p) count = .ok (some (some stop, count + rest.length)) := by
  induction chain generalizing fuel count with
  | nil p =>
    unfold Listpack.validateLoop
    dsimp only
    rw [eof]
    rfl
  | cons entry chain ih =>
    obtain ⟨byte, read, other⟩ := entry.read_ne_eof
    rw [length_cons] at enough small
    obtain ⟨fuel, rfl⟩ : ∃ n, fuel = n + 1 := ⟨fuel - 1, by omega⟩
    unfold Listpack.validateLoop
    simp only [read, ok_bind, if_neg other, entry.valid]
    rw [Nat.mod_eq_of_lt (by omega), ih eof (by omega) (by omega), length_cons, Nat.add_right_comm, Nat.add_assoc]

theorem Linked.validates {bytes : Nat} {offsets : List Nat} (linked : Linked lp bytes offsets)
    (counted : CountedBy lp offsets.length) (small : bytes ≤ 2 ^ 32) : lpValidateIntegrity lp bytes true = .ok true := by
  obtain ⟨numele, read, known⟩ := counted
  have length := linked.chain.le
  have nonempty := linked.nonempty
  have looped := linked.chain.validateLoop linked.eof (show offsets.length ≤ bytes by omega)
    (show 0 + offsets.length < 2 ^ 32 by omega)
  have total : lpGetTotalBytes lp = .ok bytes := linked.total
  rw [lpValidateIntegrity, if_neg (by omega), total, ok_bind, if_neg (by simp), linked.eof, ok_bind, if_neg (by simp)]
  simp only [read, ok_bind, looped]
  rcases known with rfl | rfl <;> simp <;> rfl

end Redis.Listpack

import Redis.Proof.Listpack.Walk

namespace Redis.Listpack
open Foundation List

theorem readCell_at {left right bytes : List UInt8} {byte : UInt8} (index : Nat) (found : bytes[index]? = some byte) :
    readCell (left ++ bytes ++ right) (left.length + index) = .ok byte := by
  have inside := (List.getElem?_eq_some_iff.mp found).1
  apply readCell_of
  rw [append_assoc, getElem?_append_right (by omega), Nat.add_sub_cancel_left, getElem?_append_left inside, found]

section Backlen
variable {lp : Memory} {p : Nat} {shifts : List Nat} (l shift : Nat)

theorem low_bits_append : l % 2 ^ shift ||| ((l / 2 ^ shift % 2 ^ 7) <<< shift) = l % 2 ^ (shift + 7) := by
  have low : l % 2 ^ shift < 2 ^ shift := Nat.mod_lt _ (Nat.two_pow_pos _)
  rw [Nat.or_comm, ← Nat.shiftLeft_add_eq_or_of_lt low, Nat.shiftLeft_eq, pow_add, Nat.mod_mul]
  ring

theorem continuation_byte : ∀ n < 128, (UInt8.ofNat n ||| 128) &&& 128 ≠ 0 ∧
    ((UInt8.ofNat n ||| 128) &&& 127).toNat = n := by decide

theorem final_byte : ∀ n < 128, UInt8.ofNat n &&& 128 = 0 ∧ (UInt8.ofNat n &&& 127).toNat = n := by decide

theorem decodeBacklenLoop_step (read : readCell lp (p + 1) = .ok (backlenByte l shift))
    (more : shifts ≠ []) : decodeBacklenLoop lp (shift :: shifts) (p + 1) (l % 2 ^ shift) =
      decodeBacklenLoop lp shifts p (l % 2 ^ (shift + 7)) := by
  have bits := low_bits_append l shift
  obtain ⟨continues, value⟩ : backlenByte l shift &&& 128 ≠ 0 ∧
      (backlenByte l shift &&& 127).toNat = l / 2 ^ shift % 128 :=
    continuation_byte (l / 2 ^ shift % 128) (Nat.mod_lt _ (by decide))
  rw [decodeBacklenLoop, read, ok_bind]
  rw [if_neg continues, if_neg more, if_neg (by omega), value]
  exact congrArg _ bits

theorem decodeBacklenLoop_last (read : readCell lp p = .ok (UInt8.ofNat (l / 2 ^ shift)))
    (small : l < 2 ^ (shift + 7)) : decodeBacklenLoop lp (shift :: shifts) p (l % 2 ^ shift) = .ok l := by
  have high : l / 2 ^ shift < 128 := by
    rw [Nat.div_lt_iff_lt_mul (Nat.two_pow_pos _), mul_comm, show 128 = 2 ^ 7 from rfl, ← pow_add]
    exact small
  obtain ⟨stops, value⟩ := final_byte _ high
  have bits := low_bits_append l shift
  rw [Nat.mod_eq_of_lt small, Nat.mod_eq_of_lt (show l / 2 ^ shift < 2 ^ 7 from high)] at bits
  rw [decodeBacklenLoop, read, ok_bind]
  rw [if_pos stops, value, bits]
  rfl

theorem lpDecodeBacklen_encode (left right : List UInt8) (small : l < 2 ^ 32) :
    lpDecodeBacklen (left ++ lpEncodeBacklen l ++ right)
      (left.length + (lpEncodeBacklen l).length - 1) = .ok l := by
  have start (lp : Memory) (p : Nat) :
      lpDecodeBacklen lp p = decodeBacklenLoop lp [0, 7, 14, 21, 28] p (l % 2 ^ 0) := by
    rw [lpDecodeBacklen, pow_zero, Nat.mod_one]
  rw [start]
  unfold lpEncodeBacklen
  split_ifs
  · exact decodeBacklenLoop_last l 0 (readCell_at 0 (by simp)) (by omega)
  · change decodeBacklenLoop _ _ (left.length + 1) _ = _
    rw [decodeBacklenLoop_step l 0 (readCell_at 1 rfl) (by decide)]
    exact decodeBacklenLoop_last l 7 (readCell_at 0 rfl) (by omega)
  · change decodeBacklenLoop _ _ (left.length + 1 + 1) _ = _
    rw [decodeBacklenLoop_step l 0 (readCell_at 2 rfl) (by decide),
      decodeBacklenLoop_step l 7 (readCell_at 1 rfl) (by decide)]
    exact decodeBacklenLoop_last l 14 (readCell_at 0 rfl) (by omega)
  · change decodeBacklenLoop _ _ (left.length + 2 + 1) _ = _
    rw [decodeBacklenLoop_step l 0 (readCell_at 3 rfl) (by decide),
      decodeBacklenLoop_step l 7 (readCell_at 2 rfl) (by decide),
      decodeBacklenLoop_step l 14 (readCell_at 1 rfl) (by decide)]
    exact decodeBacklenLoop_last l 21 (readCell_at 0 rfl) (by omega)
  · change decodeBacklenLoop _ _ (left.length + 3 + 1) _ = _
    rw [decodeBacklenLoop_step l 0 (readCell_at 4 rfl) (by decide),
      decodeBacklenLoop_step l 7 (readCell_at 3 rfl) (by decide),
      decodeBacklenLoop_step l 14 (readCell_at 2 rfl) (by decide),
      decodeBacklenLoop_step l 21 (readCell_at 1 rfl) (by decide)]
    exact decodeBacklenLoop_last l 28 (readCell_at 0 rfl) (by omega)
end Backlen

/-- The bytes that an element takes in a listpack. -/
def entryBytes (s : List UInt8) : List UInt8 :=
  (LpElement.string s).bytes ++ lpEncodeBacklen (LpElement.string s).bytes.length

theorem enclen_string (s : List UInt8) : (LpElement.string s).enclen = (LpElement.string s).bytes.length := by
  rw [LpElement.enclen, LpElement.bytes, lpEncodeGetType]
  cases lpStringToInt64 s with
  | some v => rfl
  | none =>
    simp only [lpEncodeString]
    split_ifs <;> simp [add_comm] <;> omega

/-- An integer is stored like its decimal string. -/
theorem bytes_signedDecimal {v : Int} (lower : -2 ^ 63 ≤ v) (upper : v < 2 ^ 63) :
    (LpElement.string (signedDecimal v)).bytes = lpEncodeIntegerGetType v := by
  rw [LpElement.bytes, lpEncodeGetType, lpStringToInt64_eq_some_iff.mpr ⟨rfl, lower, upper⟩]
  rfl

theorem bytes_of_plain {s : List UInt8} (plain : lpStringToInt64 s = none) :
    (LpElement.string s).bytes = lpEncodeString s := by
  rw [LpElement.bytes, lpEncodeGetType, plain]
  rfl

theorem encodes_element {s : List UInt8} (small : (LpElement.string s).bytes.length < 2 ^ 32) :
    Encodes (LpElement.string s).bytes s := by
  cases parsed : lpStringToInt64 s with
  | some v =>
    obtain ⟨rfl, lower, upper⟩ := lpStringToInt64_eq_some_iff.mp parsed
    rw [bytes_signedDecimal lower upper]
    exact encodes_integer lower upper
  | none =>
    have length := enclen_string s
    rw [LpElement.enclen, lpEncodeGetType, parsed] at length
    dsimp only at length
    rw [bytes_of_plain parsed]
    apply encodes_string
    split_ifs at length <;> omega

/-- The bytes of an entry in any of its encodings. -/
def Stored (entry : List UInt8) : Prop := ∃ enc s, Encodes enc s ∧ entry = enc ++ lpEncodeBacklen enc.length

theorem stored_entryBytes {s : List UInt8} (small : (entryBytes s).length < 2 ^ 32) : Stored (entryBytes s) := by
  rw [entryBytes, length_append] at small
  exact ⟨_, s, encodes_element (by omega), rfl⟩

theorem Stored.entryAt {entry : List UInt8} (stored : Stored entry) (left right : List UInt8) {bytes : Nat}
    (lower : lpHdrSize ≤ left.length) (upper : left.length + entry.length < bytes) (small : bytes ≤ 2 ^ 32) :
    EntryAt (left ++ entry ++ right) bytes left.length (left.length + entry.length) := by
  obtain ⟨enc, s, encodes, same⟩ := stored
  set backlen := lpEncodeBacklen enc.length with back
  have total : entry.length = enc.length + backlen.length := by
    rw [same, length_append]
  have shape : left ++ entry ++ right = left ++ enc ++ (backlen ++ right) := by
    rw [same, append_assoc, append_assoc, append_assoc]
  obtain ⟨byte, rest, starts, other, known, room⟩ := encodes.header
  have read : (left ++ entry ++ right)[left.length]? = some byte := by
    rw [shape, starts]
    simp
  have sized : lpCurrentEncodedSizeUnsafe (left ++ entry ++ right) left.length = .ok enc.length := by
    rw [shape]
    exact encodes.size left _
  have decoded : lpDecodeBacklen (left ++ entry ++ right)
      (left.length + (enc.length + backlen.length) - 1) = .ok enc.length := by
    have backward := lpDecodeBacklen_encode enc.length (left ++ enc) right (show enc.length < 2 ^ 32 by omega)
    rw [length_append, add_assoc] at backward
    rw [shape, ← append_assoc]
    exact backward
  refine ⟨?_, lower, upper, ⟨byte, read, other, known, by omega⟩, enc.length, sized, by omega, by rw [total], ?_⟩
  · rw [lpValidateNext, if_neg (by simp only [outOfRange]; omega), readCell_of read, ok_bind, if_neg other]
    rw [if_neg (by omega), if_neg (by simp only [outOfRange]; omega), sized, ok_bind, ← back,
      if_neg (by simp only [outOfRange]; omega), decoded, ok_bind, if_neg (by omega), total]
    rfl
  · rw [total]
    exact decoded

def bodyBytes (elements : List (List UInt8)) : List UInt8 := elements.flatMap entryBytes

@[simp] theorem bodyBytes_nil : bodyBytes [] = [] := rfl

@[simp] theorem bodyBytes_cons (s : List UInt8) (elements : List (List UInt8)) :
    bodyBytes (s :: elements) = entryBytes s ++ bodyBytes elements := flatMap_cons

@[simp] theorem bodyBytes_append (front back : List (List UInt8)) :
    bodyBytes (front ++ back) = bodyBytes front ++ bodyBytes back := flatMap_append

def offsetsFrom : Nat → List (List UInt8) → List Nat
  | _, [] => []
  | start, entry :: entries => start :: offsetsFrom (start + entry.length) entries

theorem length_offsetsFrom (start : Nat) (entries : List (List UInt8)) :
    (offsetsFrom start entries).length = entries.length := by
  induction entries generalizing start with
  | nil => rfl
  | cons entry entries ih => rw [offsetsFrom, length_cons, ih, length_cons]

theorem offsetsFrom_append (start : Nat) (front back : List (List UInt8)) :
    offsetsFrom start (front ++ back) = offsetsFrom start front ++ offsetsFrom (start + front.flatten.length) back := by
  induction front generalizing start with
  | nil => rfl
  | cons entry front ih =>
    rw [cons_append, offsetsFrom, ih, offsetsFrom, cons_append, flatten_cons, length_append, add_assoc]

/-- The position of the entry that follows the given ones. -/
def layoutOffset (front : List (List UInt8)) : Nat := lpHdrSize + front.flatten.length

theorem getElem?_offsetsFrom (front back : List (List UInt8)) (entry : List UInt8) :
    (offsetsFrom lpHdrSize (front ++ entry :: back))[front.length]? = some (layoutOffset front) := by
  rw [offsetsFrom_append, getElem?_append_right (by rw [length_offsetsFrom]), length_offsetsFrom, Nat.sub_self]
  rfl

theorem chain_flatten (left right : List UInt8) {entries : List (List UInt8)} {bytes : Nat}
    (stored : ∀ entry ∈ entries, Stored entry) (lower : lpHdrSize ≤ left.length)
    (upper : left.length + entries.flatten.length < bytes) (small : bytes ≤ 2 ^ 32) :
    Chain (left ++ entries.flatten ++ right) bytes left.length (offsetsFrom left.length entries)
      (left.length + entries.flatten.length) := by
  induction entries generalizing left with
  | nil => exact .nil _
  | cons entry entries ih =>
    rw [flatten_cons, length_append] at upper
    have first := (stored entry mem_cons_self).entryAt left (entries.flatten ++ right) lower
      (show left.length + entry.length < bytes by omega) small
    have rest := ih (left ++ entry) (forall_mem_cons.mp stored).2
      (by rw [length_append]; omega) (by rw [length_append]; omega)
    rw [length_append, add_assoc] at rest
    rw [flatten_cons, length_append]
    simp only [append_assoc] at first rest ⊢
    exact .cons first rest

def entryOffsets : Nat → List (List UInt8) → List Nat
  | _, [] => []
  | start, s :: elements => start :: entryOffsets (start + (entryBytes s).length) elements

theorem entryOffsets_eq (start : Nat) (elements : List (List UInt8)) :
    entryOffsets start elements = offsetsFrom start (elements.map entryBytes) := by
  induction elements generalizing start with
  | nil => rfl
  | cons s elements ih => rw [entryOffsets, ih, map_cons, offsetsFrom]

@[simp] theorem length_entryOffsets (start : Nat) (elements : List (List UInt8)) :
    (entryOffsets start elements).length = elements.length := by
  rw [entryOffsets_eq, length_offsetsFrom, length_map]

/-- Memory that starts with a listpack header. -/
def headed (total numele : Nat) (rest : List UInt8) : Memory := leBytes 4 total ++ leBytes 2 numele ++ rest

section Header
variable {total numele : Nat} (rest : List UInt8)

@[simp] theorem length_headed : (headed total numele rest).length = lpHdrSize + rest.length := by
  simp only [headed, length_append, length_leBytes, lpHdrSize]

theorem lpGetTotalBytes_headed (small : total < 2 ^ 32) : lpGetTotalBytes (headed total numele rest) = .ok total := by
  have read := readBytes_append [] (leBytes 4 total) (leBytes 2 numele ++ rest)
    (show 0 = _ from rfl) (length_leBytes _ _).symm
  rw [nil_append, ← append_assoc] at read
  rw [lpGetTotalBytes, headed, read, ok_bind, leValue_leBytes_of_lt small]
  rfl

theorem lpGetNumElements_headed (small : numele < 2 ^ 16) :
    lpGetNumElements (headed total numele rest) = .ok numele := by
  have read := readBytes_append (leBytes 4 total) (leBytes 2 numele) rest
    (length_leBytes _ _).symm (length_leBytes _ _).symm
  rw [lpGetNumElements, headed, read, ok_bind, leValue_leBytes_of_lt small]
  rfl

theorem lpSetTotalBytes_headed (value : Nat) :
    lpSetTotalBytes (headed total numele rest) value = .ok (headed value numele rest) := by
  have write := writeBytes_append [] (leBytes 4 total) (leBytes 2 numele ++ rest) (leBytes 4 value)
    (show 0 = _ from rfl) (by rw [length_leBytes, length_leBytes])
  simpa only [lpSetTotalBytes, headed, nil_append, append_assoc] using write

theorem lpSetNumElements_headed (value : Nat) :
    lpSetNumElements (headed total numele rest) value = .ok (headed total value rest) :=
  writeBytes_append (leBytes 4 total) (leBytes 2 numele) rest (leBytes 2 value) (length_leBytes _ _).symm
    (by rw [length_leBytes, length_leBytes])
end Header

/-- The header may hold the unknown mark, and otherwise it holds the number of elements. -/
def Counts (numele length : Nat) : Prop := numele < 2 ^ 16 ∧ (numele = lpHdrNumeleUnknown ∨ numele = length)

/-- The used bytes of a listpack. -/
def usedBytes (elements : List (List UInt8)) : Nat := (bodyBytes elements).length + (lpHdrSize + 1)

/-- The block of a listpack with its elements, its end mark, and unused bytes. -/
def block (numele : Nat) (elements : List (List UInt8)) (slack : List UInt8) : Memory :=
  headed (usedBytes elements) numele (bodyBytes elements ++ lpEof :: slack)

theorem length_block (numele : Nat) (elements : List (List UInt8)) (slack : List UInt8) :
    (block numele elements slack).length = usedBytes elements + slack.length := by
  simp only [block, length_headed, length_append, length_cons, usedBytes]
  omega

/-- The memory is a listpack with these elements.
Its block has no unused bytes beyond the capacity that was asked for. -/
def Holds (capacity : Nat) (lp : Memory) (elements : List (List UInt8)) : Prop :=
  ∃ numele slack, lp = block numele elements slack ∧ Counts numele elements.length ∧
    usedBytes elements < 2 ^ 32 ∧ lp.length ≤ max (usedBytes elements) capacity

/-- The position of the element that follows the given ones. -/
def entryOffset (front : List (List UInt8)) : Nat := lpHdrSize + (bodyBytes front).length

section WellFormed
/-- The used bytes of a listpack with these entries. -/
def layoutBytes (entries : List (List UInt8)) : Nat := entries.flatten.length + (lpHdrSize + 1)

def layout (numele : Nat) (entries : List (List UInt8)) (slack : List UInt8) : Memory :=
  headed (layoutBytes entries) numele (entries.flatten ++ lpEof :: slack)

/-- The memory is a listpack with these entries, each in any encoding. -/
structure WellFormed (capacity : Nat) (lp : Memory) (entries : List (List UInt8)) : Prop where
  stored : ∀ entry ∈ entries, Stored entry
  shape : ∃ numele slack, lp = layout numele entries slack ∧ Counts numele entries.length
  small : layoutBytes entries < 2 ^ 32
  tight : lp.length ≤ max (layoutBytes entries) capacity

variable {capacity : Nat} {lp : Memory} {entries elements : List (List UInt8)}

/-- The elements of a listpack are in their shortest encodings. -/
theorem stored_elements (small : (bodyBytes elements).length < 2 ^ 32) :
    ∀ entry ∈ elements.map entryBytes, Stored entry := by
  intro entry member
  obtain ⟨s, _, rfl⟩ := mem_map.mp member
  exact stored_entryBytes ((sublist_flatten_of_mem member).length_le.trans_lt small)

theorem holds_iff : Holds capacity lp elements ↔ WellFormed capacity lp (elements.map entryBytes) := by
  constructor
  · rintro ⟨numele, slack, shape, counts, small, tight⟩
    refine ⟨stored_elements ?_, ⟨numele, slack, shape, by rwa [length_map]⟩, small, tight⟩
    rw [usedBytes] at small
    omega
  · rintro ⟨_, ⟨numele, slack, shape, counts⟩, small, tight⟩
    rw [length_map] at counts
    exact ⟨numele, slack, shape, counts, small, tight⟩

variable (wellFormed : WellFormed capacity lp entries)
include wellFormed
theorem WellFormed.total : lpGetTotalBytes lp = .ok (layoutBytes entries) := by
  obtain ⟨_, ⟨numele, slack, rfl, _⟩, small, _⟩ := wellFormed
  exact lpGetTotalBytes_headed _ small

theorem WellFormed.counted : CountedBy lp entries.length := by
  obtain ⟨_, ⟨numele, slack, rfl, bounded, known⟩, _, _⟩ := wellFormed
  exact ⟨numele, lpGetNumElements_headed _ bounded, known⟩

theorem WellFormed.within : layoutBytes entries ≤ lp.length := by
  obtain ⟨_, ⟨numele, slack, rfl, _⟩, _, _⟩ := wellFormed
  simp only [layout, length_headed, length_append, length_cons, layoutBytes]
  omega

theorem WellFormed.linked : Linked lp (layoutBytes entries) (offsetsFrom lpHdrSize entries) := by
  have total := wellFormed.total
  have within := wellFormed.within
  obtain ⟨stored, ⟨numele, slack, rfl, _⟩, small, _⟩ := wellFormed
  have last : layoutBytes entries - 1 = lpHdrSize + entries.flatten.length := by
    rw [layoutBytes]
    omega
  have header : (leBytes 4 (layoutBytes entries) ++ leBytes 2 numele).length = lpHdrSize := by
    rfl
  refine ⟨total, ?_, ?_, within, by rw [layoutBytes]; omega⟩
  · have chain := chain_flatten (leBytes 4 (layoutBytes entries) ++ leBytes 2 numele) (lpEof :: slack) stored
      header.ge (show _ + entries.flatten.length < layoutBytes entries by rw [header, layoutBytes]; omega)
      small.le
    rw [header, ← last] at chain
    exact chain
  · have read := readCell_middle (leBytes 4 (layoutBytes entries) ++ leBytes 2 numele ++ entries.flatten) []
      lpEof slack
    rw [length_append, header, ← last, append_nil] at read
    exact read

omit wellFormed

theorem WellFormed.entry {front back : List (List UInt8)} {entry : List UInt8}
    (wellFormed : WellFormed capacity lp (front ++ entry :: back)) :
    EntryAt lp (layoutBytes (front ++ entry :: back)) (layoutOffset front) (layoutOffset front + entry.length) := by
  obtain ⟨stored, ⟨numele, slack, rfl, _⟩, small, _⟩ := wellFormed
  have upper : layoutOffset front + entry.length < layoutBytes (front ++ entry :: back) := by
    simp only [layoutOffset, layoutBytes, flatten_append, flatten_cons, length_append]
    omega
  have valid := (stored entry (by simp)).entryAt (headed (layoutBytes (front ++ entry :: back)) numele front.flatten)
    (back.flatten ++ lpEof :: slack) (by rw [length_headed]; omega) (by rwa [length_headed]) small.le
  rw [length_headed] at valid
  simpa only [layout, layoutOffset, flatten_append, flatten_cons, headed, append_assoc] using valid
end WellFormed

section Holds
variable {capacity : Nat} {lp : Memory} {elements front back : List (List UInt8)} {s : List UInt8}
variable (holds : Holds capacity lp elements)
include holds
theorem Holds.small : usedBytes elements < 2 ^ 32 := (holds_iff.mp holds).small

theorem Holds.total : lpGetTotalBytes lp = .ok (usedBytes elements) := (holds_iff.mp holds).total

theorem Holds.counted : CountedBy lp elements.length := by
  have counted := (holds_iff.mp holds).counted
  rwa [length_map] at counted

theorem Holds.within : usedBytes elements ≤ lp.length := (holds_iff.mp holds).within

theorem Holds.linked : Linked lp (usedBytes elements) (entryOffsets lpHdrSize elements) := by
  rw [entryOffsets_eq]
  exact (holds_iff.mp holds).linked

omit holds

theorem Holds.get (holds : Holds capacity lp (front ++ s :: back)) : lpGet lp (entryOffset front) = .ok s := by
  obtain ⟨numele, slack, rfl, _, small, _⟩ := holds
  rw [usedBytes, bodyBytes_append, bodyBytes_cons, entryBytes] at small
  simp only [length_append] at small
  have read := (encodes_element (show (LpElement.string s).bytes.length < 2 ^ 32 by omega)).get
    (leBytes 4 (usedBytes (front ++ s :: back)) ++ leBytes 2 numele ++ bodyBytes front)
    (lpEncodeBacklen (LpElement.string s).bytes.length ++ bodyBytes back ++ lpEof :: slack)
  rw [length_append, length_append, length_leBytes, length_leBytes] at read
  simpa only [block, headed, bodyBytes_append, bodyBytes_cons, entryBytes, append_assoc, entryOffset,
    lpHdrSize] using read

theorem getElem?_entryOffsets (front back : List (List UInt8)) (s : List UInt8) :
    (entryOffsets lpHdrSize (front ++ s :: back))[front.length]? = some (entryOffset front) := by
  have found := getElem?_offsetsFrom (front.map entryBytes) (back.map entryBytes) (entryBytes s)
  rw [length_map] at found
  rw [entryOffsets_eq, map_append]
  exact found

theorem mapM_lpGet (front back : List (List UInt8)) (holds : Holds capacity lp (front ++ back)) :
    (entryOffsets (entryOffset front) back).mapM (lpGet lp) = .ok back := by
  induction back generalizing front with
  | nil => rfl
  | cons s back ih =>
    have next : entryOffset front + (entryBytes s).length = entryOffset (front ++ [s]) := by
      simp only [entryOffset, bodyBytes_append, bodyBytes_cons, bodyBytes_nil, append_nil, length_append, add_assoc]
    have rest := ih (front ++ [s]) (by rwa [append_assoc])
    rw [entryOffsets, mapM_cons, holds.get, next, rest]
    rfl

theorem Holds.readElements (holds : Holds capacity lp elements) : readElements lp = .ok elements := by
  rw [Listpack.readElements, holds.linked.walkForward]
  exact mapM_lpGet [] elements holds
end Holds
end Redis.Listpack

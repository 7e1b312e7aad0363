import Redis.Proof.Listpack.Layout

namespace Redis
open List

/-- A move of a tail opens a hole of any size that the block has room for. -/
theorem memmove_gap (front old tail rest : List UInt8) {target source count gap : Nat}
    (start : target = front.length + gap) (begins : source = front.length + old.length)
    (size : count = tail.length) (room : gap ≤ old.length + rest.length) :
    ∃ hole rest', memmove (front ++ old ++ tail ++ rest) target source count =
        .ok (front ++ hole ++ tail ++ rest') ∧ hole.length = gap ∧
      rest'.length + gap = old.length + rest.length := by
  subst start begins size
  have read := readBytes_append (front ++ old) tail rest (length_append.symm) rfl
  refine ⟨(old ++ tail ++ rest).take gap, (old ++ tail ++ rest).drop (gap + tail.length), ?_, ?_, ?_⟩
  · rw [memmove, read]
    change writeBytes _ _ tail = _
    have inside : front.length + gap + tail.length ≤ (front ++ old ++ tail ++ rest).length := by
      simp only [length_append]
      omega
    have regroup : front ++ old ++ tail ++ rest = front ++ (old ++ tail ++ rest) := by
      simp only [append_assoc]
    rw [writeBytes, if_pos inside, regroup, take_length_add_append, add_assoc, drop_length_add_append]
  · simp only [length_take, length_append]
    omega
  · simp only [length_drop, length_append]
    omega

end Redis

namespace Redis.Listpack
open Foundation List

section Splice
variable {total numele new : Nat}

theorem headed_append (content rest : List UInt8) :
    headed total numele (content ++ rest) = headed total numele content ++ rest := by
  simp only [headed, append_assoc]

theorem grow_headed (new : Nat) (content slack : List UInt8) (size : total = lpHdrSize + content.length) :
    ∃ room, (if new > total ∧ new > (headed total numele (content ++ slack)).length then
        zrealloc (headed total numele (content ++ slack)) new
      else headed total numele (content ++ slack)) = headed total numele (content ++ room) ∧
      new ≤ total + room.length ∧ room.length ≤ max slack.length (new - total) := by
  by_cases grows : new > total ∧ new > (headed total numele (content ++ slack)).length
  · refine ⟨slack ++ List.replicate (new - (headed total numele (content ++ slack)).length) 0, ?_, ?_, ?_⟩
    · rw [if_pos grows, zrealloc_grow (by omega), ← append_assoc content, headed_append (content ++ slack)]
    all_goals
      simp only [length_headed, length_append, length_replicate] at grows ⊢
      omega
  · refine ⟨slack, if_neg grows, ?_, by omega⟩
    simp only [length_headed, length_append] at grows
    omega

theorem shrink_headed (content rest : List UInt8) (size : new = lpHdrSize + content.length) :
    ∃ slack, (if new < total then zrealloc (headed total numele (content ++ rest)) new
      else headed total numele (content ++ rest)) = headed total numele (content ++ slack) ∧
      slack.length ≤ rest.length ∧ (new < total → slack = []) := by
  by_cases shrinks : new < total
  · refine ⟨[], ?_, by simp, fun _ => rfl⟩
    rw [if_pos shrinks, append_nil, zrealloc_shrink (by simp only [length_headed, length_append]; omega),
      headed_append, take_left' (by rw [length_headed, size])]
  · exact ⟨rest, if_neg shrinks, le_rfl, fun less => absurd less shrinks⟩

theorem reshape_headed (numele : Nat) (left old right slack : List UInt8) (gap : Nat)
    (size : total = lpHdrSize + (left ++ old ++ right).length)
    (resized : new = total + gap - old.length) :
    ∃ room rest hole slack', (if new > total ∧ new > (headed total numele (left ++ old ++ right ++ slack)).length then
          zrealloc (headed total numele (left ++ old ++ right ++ slack)) new
        else headed total numele (left ++ old ++ right ++ slack)) = room ∧
      memmove room (lpHdrSize + left.length + gap) (lpHdrSize + left.length + old.length) right.length = .ok rest ∧
      (if new < total then zrealloc rest new else rest) = headed total numele (left ++ hole ++ right ++ slack') ∧
      hole.length = gap ∧ new + slack'.length ≤ max new (total + slack.length) ∧
      (new < total → slack' = []) := by
  obtain ⟨room, grown, enough, little⟩ := grow_headed new (left ++ old ++ right) slack size
  simp only [length_append] at size
  obtain ⟨hole, rest, moved, width, remains⟩ := memmove_gap (headed total numele left) old right room
    (show lpHdrSize + left.length + gap = _ by rw [length_headed])
    (show lpHdrSize + left.length + old.length = _ by rw [length_headed]) rfl (by omega)
  obtain ⟨slack', shrunk, less, empty⟩ := shrink_headed (left ++ hole ++ right) rest
    (show new = _ by simp only [length_append]; omega)
  have regroup (middle end' : List UInt8) : headed total numele (left ++ middle ++ right ++ end') =
      headed total numele left ++ middle ++ right ++ end' := by
    rw [headed_append, headed_append, headed_append]
  refine ⟨_, _, hole, slack', grown, by rw [regroup]; exact moved, ?_, width, ?_, empty⟩
  · rw [← regroup]
    exact shrunk
  · by_cases shrinks : new < total
    · rw [empty shrinks, length_nil]
      omega
    · omega

/-- The two writes of `lpInsert` fill the hole. -/
theorem store_headed (total numele : Nat) (left hole right slack : List UInt8) {element : LpElement} {p : Nat}
    (start : p = lpHdrSize + left.length)
    (size : hole.length = element.bytes.length + element.backlen.length) :
    (if element = .delete then return headed total numele (left ++ hole ++ right ++ slack)
      else do
        writeBytes (← writeBytes (headed total numele (left ++ hole ++ right ++ slack)) p element.bytes)
          (p + element.bytes.length) element.backlen : Checked Memory) =
      .ok (headed total numele (left ++ (element.bytes ++ element.backlen) ++ right ++ slack)) := by
  by_cases deletes : element = .delete
  · subst deletes
    rw [length_eq_zero_iff.mp size]
    rfl
  set enc := element.bytes
  have first := writeBytes_append (headed total numele left) (hole.take enc.length)
    (hole.drop enc.length ++ (right ++ slack)) enc (show p = _ by rw [length_headed, start])
    (by rw [length_take]; omega)
  have second := writeBytes_append (headed total numele left ++ enc) (hole.drop enc.length) (right ++ slack)
    element.backlen (show p + enc.length = _ by rw [length_append, length_headed, start])
    (by rw [length_drop]; omega)
  have split : headed total numele (left ++ hole ++ right ++ slack) =
      headed total numele left ++ hole.take enc.length ++ (hole.drop enc.length ++ (right ++ slack)) := by
    rw [append_assoc _ right, headed_append, headed_append, append_assoc _ (hole.take _),
      ← append_assoc (hole.take _), take_append_drop, append_assoc]
  rw [if_neg deletes, split, first, ok_bind, ← append_assoc, second]
  simp only [headed_append, append_assoc]
end Splice

/-- A known count changes with the number of elements, and an unknown count stays unknown. -/
theorem updateNumElements_headed (total : Nat) {numele length length' : Nat} (rest : List UInt8) {change : Int}
    (counts : Counts numele length) (result : (length : Int) + change = length') (up : change ≤ 1) :
    ∃ numele', updateNumElements (headed total numele rest) change = .ok (headed total numele' rest) ∧
      Counts numele' length' := by
  obtain ⟨bounded, known⟩ := counts
  rw [updateNumElements, lpGetNumElements_headed rest bounded, ok_bind]
  by_cases unknown : numele = lpHdrNumeleUnknown
  · exact ⟨numele, if_neg (not_not_intro unknown), bounded, .inl unknown⟩
  · have same := known.resolve_left unknown
    have top : numele ≠ 2 ^ 16 - 1 := unknown
    have value : (((numele : Int) + change) % 2 ^ 16).toNat = length' := by omega
    rw [if_pos unknown, value]
    exact ⟨length', rfl, by omega, .inr rfl⟩

theorem recount_headed (total : Nat) {numele length length' : Nat} (rest : List UInt8) {element : LpElement}
    {position : LpWhere} (counts : Counts numele length)
    (counted : (if position ≠ .replace ∨ element = .delete then if element = .delete then -1 else 1
      else 0 : Int) = length' - length) :
    ∃ numele', (if position ≠ .replace ∨ element = .delete then
        updateNumElements (headed total numele rest) (if element = .delete then -1 else 1)
      else pure (headed total numele rest)) = .ok (headed total numele' rest) ∧ Counts numele' length' := by
  by_cases changes : position ≠ .replace ∨ element = .delete
  · rw [if_pos changes] at counted ⊢
    exact updateNumElements_headed total rest counts (by omega) (by split <;> omega)
  · rw [if_neg changes] at counted ⊢
    obtain rfl : length' = length := by omega
    exact ⟨numele, rfl, counts⟩

/-- The first byte at a position shows whether entries follow. -/
theorem readCell_headed (total numele : Nat) (left slack : List UInt8) {back : List (List UInt8)}
    (stored : ∀ entry ∈ back, Stored entry) :
    ∃ byte, readCell (headed total numele (left ++ (back.flatten ++ [lpEof]) ++ slack))
      (lpHdrSize + left.length) = .ok byte ∧ (byte = lpEof ↔ back = []) := by
  rw [append_assoc, headed_append, ← length_headed left, ← append_nil (_ ++ _)]
  cases back with
  | nil => exact ⟨lpEof, readCell_middle _ _ _ _, by simp⟩
  | cons entry back =>
    obtain ⟨enc, s, encodes, rfl⟩ := stored entry mem_cons_self
    obtain ⟨byte, rest, rfl, other, _⟩ := encodes.header
    exact ⟨byte, readCell_middle _ _ _ _, by simpa using other⟩

theorem readCell_elements (total numele : Nat) (left slack : List UInt8) {back : List (List UInt8)}
    (small : (bodyBytes back).length < 2 ^ 32) :
    ∃ byte, readCell (headed total numele (left ++ (bodyBytes back ++ [lpEof]) ++ slack))
      (lpHdrSize + left.length) = .ok byte ∧ (byte = lpEof ↔ back = []) := by
  obtain ⟨byte, read, meaning⟩ := readCell_headed total numele left slack (stored_elements small)
  exact ⟨byte, read, meaning.trans map_eq_nil_iff⟩

theorem newp_headed (total numele : Nat) (left hole slack : List UInt8) {back : List (List UInt8)}
    {element : LpElement} (small : (bodyBytes back).length < 2 ^ 32)
    (closed : element = .delete → hole = []) :
    (if element = .delete then do
        return if (← readCell (headed total numele (left ++ hole ++ (bodyBytes back ++ [lpEof]) ++ slack))
          (lpHdrSize + left.length)) = lpEof then none else some (lpHdrSize + left.length)
      else return some (lpHdrSize + left.length) : Checked (Option Nat)) =
      .ok (if element = .delete ∧ back = [] then none else some (lpHdrSize + left.length)) := by
  by_cases deletes : element = .delete
  · obtain ⟨byte, read, meaning⟩ := readCell_elements total numele left slack small
    rw [closed deletes, append_nil, read, ok_bind]
    simp only [meaning, deletes, true_and]
    rfl
  · rw [if_neg deletes, if_neg (fun both => deletes both.1)]
    rfl

/-- The call returns a listpack with these elements, or `NULL` when they do not fit. -/
def Spliced (capacity : Nat) (result : Checked (Option (Memory × Option Nat)))
    (elements : List (List UInt8)) (newp : Option Nat) : Prop :=
  if usedBytes elements > uint32Max then result = .ok none
  else ∃ lp, result = .ok (some (lp, newp)) ∧ Holds capacity lp elements

/-- An insertion, a replacement, or a deletion exchanges some elements for others. -/
theorem lpInsert_splice {capacity p : Nat} {lp : Memory} {element : LpElement} {position position' : LpWhere}
    (front old new back : List (List UInt8)) (holds : Holds capacity lp (front ++ old ++ back))
    (positioned : insertPosition lp p (if element = .delete then .replace else position) =
      .ok (entryOffset front, position'))
    (replaced : replacedLength lp (entryOffset front) position' = .ok (bodyBytes old).length)
    (written : element.bytes ++ element.backlen = bodyBytes new)
    (sized : element.enclen = element.bytes.length)
    (counted : (if position' ≠ .replace ∨ element = .delete then if element = .delete then -1 else 1
      else 0 : Int) = new.length - old.length) :
    Spliced capacity (lpInsert lp element p position) (front ++ new ++ back)
      (if element = .delete ∧ back = [] then none else some (entryOffset front)) := by
  have total := holds.total
  obtain ⟨numele, slack, rfl, counts, small, tight⟩ := holds
  have gap : element.bytes.length + element.backlen.length = (bodyBytes new).length := by
    rw [← written, length_append]
  have size : usedBytes (front ++ old ++ back) =
      lpHdrSize + (bodyBytes front ++ bodyBytes old ++ (bodyBytes back ++ [lpEof])).length := by
    simp only [usedBytes, bodyBytes_append, length_append, length_singleton]
    omega
  have resized : usedBytes (front ++ old ++ back) + element.bytes.length + element.backlen.length -
      (bodyBytes old).length = usedBytes (front ++ new ++ back) := by
    simp only [usedBytes, bodyBytes_append, length_append]
    omega
  have count : usedBytes (front ++ old ++ back) - entryOffset front - (bodyBytes old).length =
      (bodyBytes back ++ [lpEof]).length := by
    simp only [usedBytes, entryOffset, bodyBytes_append, length_append, length_singleton]
    omega
  have shape : block numele (front ++ old ++ back) slack = headed (usedBytes (front ++ old ++ back)) numele
      (bodyBytes front ++ bodyBytes old ++ (bodyBytes back ++ [lpEof]) ++ slack) := by
    simp only [block, bodyBytes_append, append_assoc, singleton_append]
  rw [Spliced, lpInsert, positioned, ok_bind]
  dsimp only
  rw [total, ok_bind, replaced, ok_bind, sized, resized]
  by_cases large : usedBytes (front ++ new ++ back) > uint32Max
  · rw [if_pos large, if_pos large]
    rfl
  rw [if_neg large, if_neg large]
  obtain ⟨room, rest, hole, slack', grown, moved, shrunk, width, length, emptied⟩ := reshape_headed numele
    (bodyBytes front) (bodyBytes old) (bodyBytes back ++ [lpEof]) slack (bodyBytes new).length size
    (show usedBytes (front ++ new ++ back) = _ by omega)
  have offset : entryOffset front = lpHdrSize + (bodyBytes front).length := rfl
  have closed : element = .delete → hole = [] := by
    rintro rfl
    rw [← length_eq_zero_iff, width, ← written]
    rfl
  have pointer := newp_headed (usedBytes (front ++ old ++ back)) numele (bodyBytes front) hole slack'
    (show (bodyBytes back).length < 2 ^ 32 by
      simp only [usedBytes, bodyBytes_append, length_append] at small
      omega) closed
  have stored := store_headed (usedBytes (front ++ old ++ back)) numele (bodyBytes front) hole
    (bodyBytes back ++ [lpEof]) slack' rfl (width.trans gap.symm)
  rw [written] at stored
  have difference : (new.length : Int) - old.length =
      ((front ++ new ++ back).length : Nat) - ((front ++ old ++ back).length : Nat) := by
    simp only [length_append]
    omega
  obtain ⟨numele', updated, counts'⟩ := recount_headed (usedBytes (front ++ old ++ back))
    (bodyBytes front ++ bodyBytes new ++ (bodyBytes back ++ [lpEof]) ++ slack') counts
    (counted.trans difference)
  rw [shape, grown, count, add_assoc, gap, offset, moved, ok_bind, shrunk, pointer, ok_bind, stored, ok_bind,
    updated, ok_bind, lpSetTotalBytes_headed]
  refine ⟨_, rfl, numele', slack', ?_, counts', by simp only [uint32Max] at large; omega, ?_⟩
  · simp only [block, bodyBytes_append, append_assoc, singleton_append]
  · have whole : (headed (usedBytes (front ++ new ++ back)) numele'
        (bodyBytes front ++ bodyBytes new ++ (bodyBytes back ++ [lpEof]) ++ slack')).length =
        usedBytes (front ++ new ++ back) + slack'.length := by
      simp only [length_headed, length_append, length_singleton, usedBytes, bodyBytes_append]
      omega
    rw [length_block] at tight
    rw [whole]
    by_cases shrinks : usedBytes (front ++ new ++ back) < usedBytes (front ++ old ++ back)
    · rw [emptied shrinks, length_nil]
      omega
    · omega

section Operations
variable {capacity : Nat} {lp : Memory} {elements front back : List (List UInt8)} {s x : List UInt8}

theorem entryOffset_append_singleton (front : List (List UInt8)) (x : List UInt8) :
    entryOffset (front ++ [x]) = entryOffset front + (entryBytes x).length := by
  simp only [entryOffset, bodyBytes_append, bodyBytes_cons, bodyBytes_nil, append_nil, length_append, add_assoc]

theorem entryOffset_lt (front back : List (List UInt8)) : entryOffset front < usedBytes (front ++ back) := by
  simp only [entryOffset, usedBytes, bodyBytes_append, length_append]
  omega

theorem Holds.entry (holds : Holds capacity lp (front ++ x :: back)) :
    EntryAt lp (usedBytes (front ++ x :: back)) (entryOffset front) (entryOffset (front ++ [x])) := by
  have wellFormed := holds_iff.mp holds
  rw [map_append] at wellFormed
  have entry := wellFormed.entry
  rw [← map_cons, ← map_append] at entry
  rw [entryOffset_append_singleton]
  exact entry

theorem Holds.encodedSize (holds : Holds capacity lp (front ++ x :: back)) :
    ∃ size, lpCurrentEncodedSizeUnsafe lp (entryOffset front) = .ok size ∧
      size + (lpEncodeBacklen size).length = (entryBytes x).length := by
  obtain ⟨size, sized, _, same, _⟩ := holds.entry.size
  rw [entryOffset_append_singleton] at same
  exact ⟨size, sized, by omega⟩

/-- The arguments of `lpInsert` for a new element. -/
structure Stores (element : LpElement) (s : List UInt8) : Prop where
  bytes : element.bytes ++ element.backlen = bodyBytes [s]
  enclen : element.enclen = element.bytes.length
  inserts : element ≠ .delete

theorem stores_string (s : List UInt8) : Stores (.string s) s where
  bytes := by
    rw [LpElement.backlen, enclen_string, bodyBytes_cons, bodyBytes_nil, append_nil]
    · rfl
    · simp
  enclen := enclen_string s
  inserts := by simp

theorem stores_integer {v : Int} (lower : -2 ^ 63 ≤ v) (upper : v < 2 ^ 63) :
    Stores (.integer (lpEncodeIntegerGetType v)) (signedDecimal v) where
  bytes := by
    rw [bodyBytes_cons, bodyBytes_nil, append_nil, entryBytes, bytes_signedDecimal lower upper]
    rfl
  enclen := rfl
  inserts := by simp

theorem Holds.insertBefore {element : LpElement} (holds : Holds capacity lp (front ++ back))
    (stores : Stores element s) :
    Spliced capacity (lpInsert lp element (entryOffset front) .before) (front ++ s :: back)
      (some (entryOffset front)) := by
  have spliced := lpInsert_splice front [] [s] back (by rwa [append_nil])
    (show insertPosition lp (entryOffset front) (if element = .delete then .replace else .before) =
      .ok (entryOffset front, .before) by rw [if_neg stores.inserts]; rfl)
    rfl stores.bytes stores.enclen (by simp [stores.inserts])
  simpa only [stores.inserts, false_and, if_false, append_assoc, singleton_append] using spliced

variable (holds : Holds capacity lp (front ++ x :: back))
include holds
theorem Holds.insertAfter {element : LpElement} (stores : Stores element s) :
    Spliced capacity (lpInsert lp element (entryOffset front) .after) (front ++ x :: s :: back)
      (some (entryOffset (front ++ [x]))) := by
  have inside := entryOffset_lt (front ++ [x]) back
  rw [append_assoc] at inside
  have lower : entryOffset (front ++ [x]) ≥ lpHdrSize := Nat.le_add_right _ _
  have spliced := lpInsert_splice (front ++ [x]) [] [s] back (by simpa using holds)
    (show insertPosition lp (entryOffset front) (if element = .delete then .replace else .after) =
      .ok (entryOffset (front ++ [x]), .before) by
        rw [if_neg stores.inserts, insertPosition, if_pos rfl, holds.entry.skip, ok_bind, holds.total, ok_bind,
          require_of ⟨lower, inside⟩]
        rfl)
    rfl stores.bytes stores.enclen (by simp [stores.inserts])
  simpa only [stores.inserts, false_and, if_false, append_assoc, singleton_append,
    cons_append, nil_append] using spliced

theorem Holds.replacedLength : replacedLength lp (entryOffset front) .replace = .ok (bodyBytes [x]).length := by
  obtain ⟨size, sized, same⟩ := holds.encodedSize
  have small := holds.small
  have inside := entryOffset_lt (front ++ [x]) back
  rw [append_assoc, singleton_append, entryOffset_append_singleton] at inside
  have lower : entryOffset front ≥ lpHdrSize := Nat.le_add_right _ _
  rw [Listpack.replacedLength, if_pos rfl, sized, ok_bind, same, holds.total, ok_bind,
    Nat.mod_eq_of_lt (by omega), require_of ⟨lower, inside⟩, bodyBytes_cons, bodyBytes_nil, append_nil]
  rfl

theorem Holds.replace {element : LpElement} (stores : Stores element s) :
    Spliced capacity (lpInsert lp element (entryOffset front) .replace) (front ++ s :: back)
      (some (entryOffset front)) := by
  have spliced := lpInsert_splice front [x] [s] back (by simpa using holds)
    (show insertPosition lp (entryOffset front) (if element = .delete then .replace else .replace) =
      .ok (entryOffset front, .replace) by rw [ite_self]; rfl)
    holds.replacedLength stores.bytes stores.enclen (by simp [stores.inserts])
  simpa only [stores.inserts, false_and, if_false, append_assoc, singleton_append] using spliced

theorem Holds.delete : ∃ lp', lpDelete lp (entryOffset front) =
        .ok (some (lp', if back = [] then none else some (entryOffset front))) ∧
      Holds capacity lp' (front ++ back) := by
  have small := holds.small
  have spliced := lpInsert_splice front [x] [] back (by simpa using holds)
    (show insertPosition lp (entryOffset front) (if LpElement.delete = .delete then .replace else .replace) =
      .ok (entryOffset front, .replace) from rfl) holds.replacedLength rfl rfl (by simp)
  rw [append_nil, Spliced, if_neg] at spliced
  · simpa only [true_and, lpDelete] using spliced
  · simp only [usedBytes, bodyBytes_append, bodyBytes_cons, length_append, uint32Max] at small ⊢
    omega
end Operations
end Redis.Listpack

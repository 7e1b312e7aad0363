import Redis.Proof.Listpack.Insert

namespace Redis
open List

/-- A move toward the start of the block keeps everything after the moved bytes. -/
theorem memmove_down (front old tail rest : List UInt8) {target source count : Nat}
    (start : target = front.length) (begins : source = front.length + old.length)
    (size : count = tail.length) :
    memmove (front ++ old ++ tail ++ rest) target source count =
      .ok (front ++ tail ++ (old ++ tail).drop tail.length ++ rest) := by
  subst start begins size
  have read := readBytes_append (front ++ old) tail rest (length_append.symm) rfl
  have inside : front.length + tail.length ≤ (front ++ old ++ tail ++ rest).length := by
    simp only [length_append]
    omega
  have regroup : front ++ old ++ tail ++ rest = front ++ (old ++ tail ++ rest) := by
    simp only [append_assoc]
  have shorter : tail.length ≤ (old ++ tail).length := by
    rw [length_append]
    omega
  rw [memmove, read]
  change writeBytes _ _ tail = _
  rw [writeBytes, if_pos inside, regroup, take_left, drop_length_add_append,
    drop_append_of_le_length shorter, ← append_assoc]

end Redis

namespace Redis.Listpack
open Foundation List

theorem memmove_headed (total numele : Nat) (left old tail rest : List UInt8) {target source count : Nat}
    (start : target = lpHdrSize + left.length) (begins : source = lpHdrSize + left.length + old.length)
    (size : count = tail.length) :
    memmove (headed total numele (left ++ old ++ tail ++ rest)) target source count =
      .ok (headed total numele (left ++ tail ++ ((old ++ tail).drop tail.length ++ rest))) := by
  have moved := memmove_down (headed total numele left) old tail rest
    (show target = _ by rw [length_headed, start]) (show source = _ by rw [length_headed, begins]) size
  simpa only [headed, append_assoc] using moved

theorem lpShrinkToFit_headed {total numele : Nat} (content slack : List UInt8)
    (size : total = lpHdrSize + content.length) (small : total < 2 ^ 32) :
    lpShrinkToFit (headed total numele (content ++ slack)) = .ok (headed total numele content) := by
  rw [lpShrinkToFit, lpGetTotalBytes_headed _ small, ok_bind]
  by_cases shorter : total < (headed total numele (content ++ slack)).length
  · rw [if_pos shorter, zrealloc_shrink shorter.le, headed_append, take_left' (by rw [length_headed, size])]
    rfl
  · rw [length_headed, length_append] at shorter
    have empty : slack = [] := length_eq_zero_iff.mp (by omega)
    subst empty
    rw [append_nil, if_neg (by rw [length_headed]; omega)]
    rfl

theorem holds_block (capacity : Nat) {numele : Nat} {elements : List (List UInt8)}
    (counts : Counts numele elements.length) (small : usedBytes elements < 2 ^ 32) :
    Holds capacity (block numele elements []) elements :=
  ⟨numele, [], rfl, counts, small, by rw [length_block, length_nil]; omega⟩

section Range
variable {capacity : Nat} {lp : Memory} {entries front back : List (List UInt8)}

theorem wellFormed_layout (capacity : Nat) {numele : Nat} (stored : ∀ entry ∈ entries, Stored entry)
    (counts : Counts numele entries.length) (small : layoutBytes entries < 2 ^ 32) :
    WellFormed capacity (layout numele entries []) entries := by
  refine ⟨stored, ⟨numele, [], rfl, counts⟩, small, ?_⟩
  simp only [layout, length_headed, length_append, length_singleton, layoutBytes]
  omega

theorem WellFormed.readCell (wellFormed : WellFormed capacity lp (front ++ back)) :
    ∃ byte, readCell lp (layoutOffset front) = .ok byte ∧ (byte = lpEof ↔ back = []) := by
  obtain ⟨stored, ⟨numele, slack, rfl, _⟩, _, _⟩ := wellFormed
  have read := readCell_headed (layoutBytes (front ++ back)) numele front.flatten slack
    fun entry member => stored entry (mem_append_right front member)
  simpa only [layout, flatten_append, append_assoc, singleton_append, layoutOffset] using read

theorem deleteLoop_spec (num deleted : Nat) (wellFormed : WellFormed capacity lp (front ++ back)) (some : back ≠ []) :
    deleteLoop lp (layoutBytes (front ++ back)) num (layoutOffset front) deleted =
      .ok (layoutOffset (front ++ back.take num), deleted + (back.take num).length) := by
  induction num generalizing front back deleted with
  | zero =>
    rw [take_zero, append_nil]
    rfl
  | succ num ih =>
    cases back with
    | nil => exact absurd rfl some
    | cons x back =>
      have next : layoutOffset front + x.length = layoutOffset (front ++ [x]) := by
        simp only [layoutOffset, flatten_append, flatten_singleton, length_append, add_assoc]
      have after : WellFormed capacity lp (front ++ [x] ++ back) := by simpa using wellFormed
      obtain ⟨byte, read, meaning⟩ := after.readCell
      rw [deleteLoop, wellFormed.entry.skip, ok_bind, next, read, ok_bind, take_succ_cons]
      cases back with
      | nil =>
        rw [if_pos (meaning.mpr rfl), take_nil]
        rfl
      | cons y back =>
        have shifted : front ++ [x] ++ y :: back = front ++ x :: y :: back := by simp
        have entry := after.entry
        have rest := ih (deleted + 1) after (by simp)
        rw [shifted] at entry rest
        rw [if_neg (fun eof => by simpa using meaning.mp eof), entry.assert_valid, ok_bind, rest,
          append_assoc, singleton_append, length_cons]
        congr 2
        omega

theorem WellFormed.deleteRangeWithEntry (wellFormed : WellFormed capacity lp (front ++ back)) {num : Nat}
    (some : back ≠ []) (positive : num ≠ 0) :
    ∃ lp', lpDeleteRangeWithEntry lp (layoutOffset front) num = .ok (lp',
        if back.drop num = [] then none else .some (layoutOffset front)) ∧
      WellFormed capacity lp' (front ++ back.drop num) := by
  have total : lpBytes lp = .ok _ := wellFormed.total
  have looped := deleteLoop_spec num 0 wellFormed some
  have split := take_append_drop num back
  set removed := back.take num
  set kept := back.drop num
  rw [← split] at wellFormed total looped
  obtain ⟨stored, ⟨numele, slack, rfl, counts⟩, small, _⟩ := wellFormed
  have used : layoutBytes (front ++ (removed ++ kept)) - (layoutOffset (front ++ removed) - layoutOffset front) =
      layoutBytes (front ++ kept) := by
    simp only [layoutBytes, layoutOffset, flatten_append, length_append]
    omega
  have moved := memmove_headed (layoutBytes (front ++ (removed ++ kept))) numele front.flatten
    removed.flatten (kept.flatten ++ [lpEof]) slack (show layoutOffset front = _ from rfl)
    (show layoutOffset (front ++ removed) = _ by
      simp only [layoutOffset, flatten_append, length_append, add_assoc])
    (show layoutBytes (front ++ (removed ++ kept)) - layoutOffset (front ++ removed) = _ by
      simp only [layoutBytes, layoutOffset, flatten_append, length_append, length_singleton]
      omega)
  have shape : layout numele (front ++ (removed ++ kept)) slack =
      headed (layoutBytes (front ++ (removed ++ kept))) numele
        (front.flatten ++ removed.flatten ++ (kept.flatten ++ [lpEof]) ++ slack) := by
    simp only [layout, flatten_append, append_assoc, singleton_append]
  obtain ⟨numele', updated, counts'⟩ := updateNumElements_headed (layoutBytes (front ++ kept))
    (front.flatten ++ (kept.flatten ++ [lpEof]) ++
      ((removed.flatten ++ (kept.flatten ++ [lpEof])).drop (kept.flatten ++ [lpEof]).length ++ slack))
    counts (show ((front ++ (removed ++ kept)).length : Int) + (-(removed.length : Int)) =
      ((front ++ kept).length : Nat) by simp only [length_append]; omega) (by omega)
  have size : layoutBytes (front ++ kept) = lpHdrSize + (front.flatten ++ (kept.flatten ++ [lpEof])).length := by
    simp only [layoutBytes, flatten_append, length_append, length_singleton]
    omega
  have smaller : layoutBytes (front ++ kept) < 2 ^ 32 := by omega
  have final : headed (layoutBytes (front ++ kept)) numele' (front.flatten ++ (kept.flatten ++ [lpEof])) =
      layout numele' (front ++ kept) [] := by
    simp only [layout, flatten_append, append_assoc]
  have result := wellFormed_layout capacity (fun entry member => stored entry (by
    simp only [mem_append] at member ⊢
    tauto)) counts' smaller
  obtain ⟨byte, read, meaning⟩ := result.readCell
  refine ⟨_, ?_, result⟩
  rw [lpDeleteRangeWithEntry, total, ok_bind, if_neg positive, looped, ok_bind]
  dsimp only
  rw [shape, moved, ok_bind, used, lpSetTotalBytes_headed, ok_bind, Nat.zero_add, updated, ok_bind,
    lpShrinkToFit_headed _ _ size smaller, final, ok_bind, read, ok_bind]
  simp only [meaning]
  rfl

theorem seekPosition_lt {length k : Nat} {index : Int} (found : seekPosition length index = some k) :
    k < length ∧ (if index < 0 then (length : Int) + index else index) = k := by
  unfold seekPosition at found
  dsimp only at found
  generalize (if index < 0 then (length : Int) + index else index) = position at found ⊢
  split_ifs at found with inside
  have same := Option.some.inj found
  omega

theorem WellFormed.seek (wellFormed : WellFormed capacity lp entries) (index : Int) :
    lpSeek lp index = .ok ((seekPosition entries.length index).map fun k => layoutOffset (entries.take k)) := by
  have sought := wellFormed.linked.seek (by simpa [length_offsetsFrom] using wellFormed.counted) index
  rw [length_offsetsFrom] at sought
  rw [sought]
  cases found : seekPosition entries.length index with
  | none => rfl
  | some k =>
    have inside := (seekPosition_lt found).1
    have offset := getElem?_offsetsFrom (entries.take k) (entries.drop (k + 1)) entries[k]
    rw [← drop_eq_getElem_cons inside, take_append_drop, length_take, Nat.min_eq_left inside.le] at offset
    simp only [Option.bind_some, Option.map_some, offset]

theorem truncate_layout {numele value : Nat} {slack : List UInt8} (some : back ≠ [])
    (stored : ∀ entry ∈ back, Stored entry) (small : layoutBytes (front ++ back) < 2 ^ 32) :
    (do
      let lp ← writeBytes (layout numele (front ++ back) slack) (layoutOffset front) [lpEof]
      let lp ← lpSetTotalBytes lp (layoutOffset front + 1)
      let lp ← lpSetNumElements lp value
      lpShrinkToFit lp : Checked Memory) = .ok (layout value front []) := by
  obtain ⟨byte, rest, starts⟩ : ∃ byte rest, back.flatten = byte :: rest := by
    cases back with
    | nil => exact absurd rfl some
    | cons entry back =>
      obtain ⟨enc, s, encodes, rfl⟩ := stored entry mem_cons_self
      obtain ⟨byte, rest, rfl, _⟩ := encodes.header
      exact ⟨byte, _, rfl⟩
  have write := writeBytes_append (headed (layoutBytes (front ++ back)) numele front.flatten) [byte]
    (rest ++ lpEof :: slack) [lpEof] (show layoutOffset front = _ by rw [length_headed]; rfl) rfl
  have shape : layout numele (front ++ back) slack =
      headed (layoutBytes (front ++ back)) numele front.flatten ++ [byte] ++ (rest ++ lpEof :: slack) := by
    simp only [layout, flatten_append, starts, headed, append_assoc, cons_append, nil_append]
  have bound : layoutOffset front + 1 < 2 ^ 32 := by
    simp only [layoutBytes, flatten_append, length_append] at small
    rw [layoutOffset]
    omega
  rw [shape, write, ok_bind, ← headed_append, ← headed_append, lpSetTotalBytes_headed, ok_bind,
    lpSetNumElements_headed, ok_bind, lpShrinkToFit_headed _ _ (by simp [layoutOffset, add_assoc]) bound,
    layout, show layoutBytes front = layoutOffset front + 1 by simp only [layoutBytes, layoutOffset]; omega]

theorem lpGetNumElements_lt {numele : Nat} (read : lpGetNumElements lp = .ok numele) : numele < 2 ^ 16 := by
  rw [lpGetNumElements, readBytes] at read
  split_ifs at read with inside
  · have value := leValue_lt ((lp.drop 4).take 2)
    rw [← Except.ok.inj read]
    have narrow : ((lp.drop 4).take 2).length ≤ 2 := length_take_le _ _
    exact lt_of_lt_of_le value (Nat.pow_le_pow_right (show 0 < 256 by decide) narrow)
  · cases read

/-- The entries that stay when a range is deleted by index. -/
def withoutRange {A : Type} (elements : List A) (index : Int) (num : Nat) : List A :=
  match seekPosition elements.length index with
  | none => elements
  | some k => elements.take k ++ elements.drop (k + num)

theorem WellFormed.deleteRange (wellFormed : WellFormed capacity lp entries) (index : Int) (num : Nat) :
    ∃ lp', lpDeleteRange lp index num = .ok lp' ∧ WellFormed capacity lp' (withoutRange entries index num) := by
  obtain ⟨numele, read, known⟩ := wellFormed.counted
  rw [lpDeleteRange, read, ok_bind, withoutRange]
  by_cases nothing : num = 0
  · refine ⟨lp, by rw [if_pos nothing]; rfl, ?_⟩
    subst nothing
    cases seekPosition entries.length index with
    | none => exact wellFormed
    | some k => simpa using wellFormed
  rw [if_neg nothing, wellFormed.seek, ok_bind]
  cases found : seekPosition entries.length index with
  | none => exact ⟨lp, rfl, wellFormed⟩
  | some k =>
    obtain ⟨inside, position⟩ := seekPosition_lt found
    have rest : entries.drop k ≠ [] := by simpa using inside
    have located : WellFormed capacity lp (entries.take k ++ entries.drop k) := by rwa [take_append_drop]
    simp only [Option.map_some]
    by_cases quick : numele ≠ lpHdrNumeleUnknown ∧
        (numele : Int) - (if numele ≠ lpHdrNumeleUnknown ∧ index < 0 then (numele : Int) + index else index) ≤ num
    · -- The count is known, so the range reaches the end and no element after it stays.
      obtain ⟨counted, reaches⟩ := quick
      have same : numele = entries.length := known.resolve_left counted
      have normal : (if numele ≠ lpHdrNumeleUnknown ∧ index < 0 then (numele : Int) + index else index) = k := by
        rw [← position, ← same]
        simp only [counted, true_and, ne_eq, not_false_eq_true]
      rw [normal] at reaches
      rw [if_pos ⟨counted, by rwa [normal]⟩, normal]
      have bounded := lpGetNumElements_lt read
      obtain ⟨stored, ⟨_, slack, shape, _⟩, small, _⟩ := located
      refine ⟨layout k (entries.take k) [], ?_, ?_⟩
      · rw [shape]
        exact truncate_layout rest (fun entry member => stored entry (mem_append_right _ member)) small
      · rw [drop_eq_nil_of_le (by omega), append_nil]
        refine wellFormed_layout capacity (fun entry member => stored entry (mem_append_left _ member))
          ⟨by omega, .inr (by rw [length_take]; omega)⟩ ?_
        simp only [layoutBytes, flatten_append, length_append] at small ⊢
        omega
    · rw [if_neg quick]
      obtain ⟨lp', deleted, result⟩ := located.deleteRangeWithEntry rest nothing
      refine ⟨lp', by rw [deleted]; rfl, ?_⟩
      rwa [drop_drop] at result

theorem Holds.seek {elements : List (List UInt8)} (holds : Holds capacity lp elements) (index : Int) :
    lpSeek lp index = .ok ((seekPosition elements.length index).map fun k => entryOffset (elements.take k)) := by
  have sought := (holds_iff.mp holds).seek index
  simp only [length_map, ← map_take] at sought
  exact sought

theorem Holds.deleteRangeWithEntry (holds : Holds capacity lp (front ++ back)) {num : Nat} (some : back ≠ [])
    (positive : num ≠ 0) :
    ∃ lp', lpDeleteRangeWithEntry lp (entryOffset front) num = .ok (lp',
        if back.drop num = [] then none else .some (entryOffset front)) ∧
      Holds capacity lp' (front ++ back.drop num) := by
  have wellFormed := holds_iff.mp holds
  rw [map_append] at wellFormed
  obtain ⟨lp', deleted, result⟩ := wellFormed.deleteRangeWithEntry (by simpa using some) positive
  rw [← map_drop, ← map_append] at result
  simp only [← map_drop, map_eq_nil_iff] at deleted
  exact ⟨lp', deleted, holds_iff.mpr result⟩

theorem Holds.deleteRange {elements : List (List UInt8)} (holds : Holds capacity lp elements) (index : Int) (num : Nat) :
    ∃ lp', lpDeleteRange lp index num = .ok lp' ∧ Holds capacity lp' (withoutRange elements index num) := by
  obtain ⟨lp', deleted, result⟩ := (holds_iff.mp holds).deleteRange index num
  refine ⟨lp', deleted, holds_iff.mpr ?_⟩
  rw [withoutRange, length_map] at result
  rw [withoutRange]
  generalize seekPosition elements.length index = position at result ⊢
  cases position with
  | none => exact result
  | some k => rwa [map_append, map_take, map_drop]

theorem WellFormed.readEntry {entry : List UInt8} (wellFormed : WellFormed capacity lp (front ++ entry :: back)) :
    readBytes lp (layoutOffset front) entry.length = .ok entry := by
  obtain ⟨_, ⟨numele, slack, rfl, _⟩, _, _⟩ := wellFormed
  have read := readBytes_append (headed (layoutBytes (front ++ entry :: back)) numele front.flatten) entry
    (back.flatten ++ lpEof :: slack) (show layoutOffset front = _ by rw [length_headed]; rfl) rfl
  simpa only [layout, headed, flatten_append, flatten_cons, append_assoc] using read

end Range

section Batch
/-- A deleted element and the kept elements up to the next deleted one. -/
abbrev Segment := List UInt8 × List (List UInt8)

variable (segments : List Segment)

def segmentElements : List (List UInt8) := segments.flatMap fun part => part.1 :: part.2

def keptElements : List (List UInt8) := segments.flatMap Prod.snd

/-- The positions of the deleted elements. -/
def segmentOffsets : Nat → List Segment → List Nat
  | _, [] => []
  | start, part :: segments => start :: segmentOffsets (start + (bodyBytes (part.1 :: part.2)).length) segments

theorem segmentElements_cons (part : Segment) (segments : List Segment) :
    segmentElements (part :: segments) = part.1 :: (part.2 ++ segmentElements segments) := by
  rfl

theorem keptElements_cons (part : Segment) (segments : List Segment) :
    keptElements (part :: segments) = part.2 ++ keptElements segments := flatMap_cons

theorem length_segmentElements :
    (segmentElements segments).length = (keptElements segments).length + segments.length := by
  induction segments with
  | nil => rfl
  | cons part segments ih =>
    rw [segmentElements_cons, keptElements_cons]
    simp only [length_cons, length_append]
    omega

theorem length_bodyBytes_keptElements :
    (bodyBytes (keptElements segments)).length ≤ (bodyBytes (segmentElements segments)).length := by
  induction segments with
  | nil => exact le_rfl
  | cons part segments ih =>
    rw [segmentElements_cons, keptElements_cons]
    simp only [bodyBytes_cons, bodyBytes_append, length_append]
    omega

theorem length_segmentOffsets (start : Nat) (segments : List Segment) :
    (segmentOffsets start segments).length = segments.length := by
  induction segments generalizing start with
  | nil => rfl
  | cons part segments ih => rw [segmentOffsets, length_cons, ih, length_cons]

theorem lpSkip_entryBytes (left right : List UInt8) {x : List UInt8} (small : (entryBytes x).length < 2 ^ 32) :
    lpSkip (left ++ entryBytes x ++ right) left.length = .ok (left.length + (entryBytes x).length) := by
  have total : (entryBytes x).length = (LpElement.string x).bytes.length +
      (lpEncodeBacklen (LpElement.string x).bytes.length).length := by
    rw [entryBytes, length_append]
  have size := (encodes_element (show (LpElement.string x).bytes.length < 2 ^ 32 by omega)).size left
    (lpEncodeBacklen (LpElement.string x).bytes.length ++ right)
  rw [← append_assoc, append_assoc left] at size
  rw [lpSkip, entryBytes, size, length_append]
  rfl

theorem batchLoop_cons {lpEnd skip keepStart dst : Nat} {rest : List Nat} {lp : Memory} {byte : UInt8}
    (read : readCell lp skip = .ok byte) (other : byte ≠ lpEof) (skipped : lpSkip lp skip = .ok keepStart) :
    batchLoop lpEnd (skip :: rest) lp dst =
      if rest ≠ [] ∧ keepStart = rest.head?.getD lpEnd then batchLoop lpEnd rest lp dst
      else (do
        require .lpBatchDelete (rest.head?.getD lpEnd > keepStart)
        let moved ← memmove lp dst keepStart (rest.head?.getD lpEnd - keepStart)
        batchLoop lpEnd rest moved (dst + (rest.head?.getD lpEnd - keepStart))) := by
  rw [batchLoop, read, ok_bind, require_of other, ok_bind, skipped, ok_bind]

/-- The last move takes the end of the listpack with it. -/
def closing : List Segment → List UInt8
  | [] => []
  | _ => [lpEof]

/-- The loop moves the kept elements together. The bytes between the kept elements and the next
deleted one are left over from earlier moves. -/
theorem batchLoop_spec (total numele : Nat) (segments : List Segment) (kept junk slack : List UInt8) {lpEnd : Nat}
    (ends : lpEnd = lpHdrSize + (kept ++ junk ++ (bodyBytes (segmentElements segments) ++ closing segments)).length)
    (small : (bodyBytes (segmentElements segments)).length < 2 ^ 32) :
    ∃ rest, batchLoop lpEnd (segmentOffsets (lpHdrSize + (kept ++ junk).length) segments)
        (headed total numele (kept ++ junk ++ (bodyBytes (segmentElements segments) ++ closing segments) ++ slack))
        (lpHdrSize + kept.length) =
      .ok (headed total numele (kept ++ (bodyBytes (keptElements segments) ++ closing segments) ++ rest),
        lpHdrSize + (kept ++ (bodyBytes (keptElements segments) ++ closing segments)).length) := by
  induction segments generalizing kept junk with
  | nil => exact ⟨junk ++ slack, by simp [batchLoop, segmentOffsets, segmentElements, keptElements, closing]⟩
  | cons part segments ih =>
    obtain ⟨x, keep⟩ := part
    obtain ⟨byte, read, meaning⟩ := readCell_elements total numele (kept ++ junk) slack small
    -- The bytes that are kept behind the element, and the end if no element is deleted behind them.
    set following := segmentOffsets (lpHdrSize + (kept ++ junk).length + (bodyBytes (x :: keep)).length) segments
      with offsets
    obtain ⟨moved, whole, final, next, again, more⟩ : ∃ moved,
        bodyBytes (keep ++ segmentElements segments) ++ [lpEof] =
          moved ++ (bodyBytes (segmentElements segments) ++ closing segments) ∧
        bodyBytes (keep ++ keptElements segments) ++ [lpEof] =
          moved ++ (bodyBytes (keptElements segments) ++ closing segments) ∧
        following.head?.getD lpEnd = lpHdrSize + (kept ++ junk).length + (entryBytes x).length + moved.length ∧
        following = segmentOffsets (lpHdrSize + (kept ++ (junk ++ entryBytes x) ++ moved).length) segments ∧
        (moved = [] → following ≠ []) := by
      cases segments with
      | nil =>
        refine ⟨bodyBytes keep ++ [lpEof], ?_, ?_, ?_, ?_, ?_⟩
        all_goals simp [offsets, segmentElements, keptElements, closing, segmentOffsets, ends, bodyBytes_cons]
        omega
      | cons next segments =>
        refine ⟨bodyBytes keep, ?_, ?_, ?_, ?_, ?_⟩
        all_goals simp [offsets, closing, segmentOffsets, bodyBytes_append, bodyBytes_cons, add_assoc]
    have content : kept ++ junk ++ (bodyBytes (segmentElements ((x, keep) :: segments)) ++ [lpEof]) =
        kept ++ (junk ++ entryBytes x) ++ moved ++ (bodyBytes (segmentElements segments) ++ closing segments) := by
      rw [segmentElements_cons, bodyBytes_cons, append_assoc (entryBytes x), whole]
      simp only [append_assoc]
    simp only [segmentElements_cons, bodyBytes_cons, bodyBytes_append, length_append] at small
    have skipped := lpSkip_entryBytes (headed total numele (kept ++ junk))
      (moved ++ (bodyBytes (segmentElements segments) ++ closing segments ++ slack))
      (show (entryBytes x).length < 2 ^ 32 by omega)
    rw [length_headed, headed, append_assoc _ _ (entryBytes x), append_assoc _ _ (moved ++ _), ← headed] at skipped
    rw [show closing ((x, keep) :: segments) = [lpEof] from rfl] at ends ⊢
    rw [content] at ends read ⊢
    rw [segmentOffsets, keptElements_cons]
    dsimp only
    rw [← offsets, final, batchLoop_cons read (fun eof => by simpa [segmentElements_cons] using meaning.mp eof)
      (by simpa only [append_assoc] using skipped), next]
    simp only [length_append] at ends
    by_cases adjacent : moved = []
    · obtain ⟨rest, looped⟩ := ih kept (junk ++ entryBytes x) (by simp [adjacent] at ends ⊢; omega) (by omega)
      refine ⟨rest, ?_⟩
      rw [if_pos ⟨more adjacent, by rw [adjacent]; rfl⟩, again, adjacent, append_nil, nil_append]
      exact looped
    · have long := length_pos_of_ne_nil adjacent
      rw [if_neg (fun both => by omega), require_of (by omega), ok_bind, Nat.add_sub_cancel_left,
        append_assoc _ _ slack, memmove_headed _ _ _ _ _ _ rfl (by simp only [length_append]; omega) rfl, ok_bind]
      obtain ⟨rest, looped⟩ := ih (kept ++ moved) (drop moved.length (junk ++ entryBytes x ++ moved))
        (by simp only [length_append, length_drop]; omega) (by omega)
      have width : (kept ++ moved ++ drop moved.length (junk ++ entryBytes x ++ moved)).length =
          (kept ++ (junk ++ entryBytes x) ++ moved).length := by
        simp only [length_append, length_drop]
        omega
      rw [width, ← again, length_append] at looped
      refine ⟨rest, ?_⟩
      simpa only [append_assoc, add_assoc] using looped

theorem Holds.batchDelete {capacity : Nat} {lp : Memory} {front : List (List UInt8)} {segments : List Segment}
    (holds : Holds capacity lp (front ++ segmentElements segments)) :
    ∃ lp', lpBatchDelete lp (segmentOffsets (entryOffset front) segments) = .ok lp' ∧
      Holds capacity lp' (front ++ keptElements segments) := by
  cases segments with
  | nil =>
    exact ⟨lp, rfl, holds⟩
  | cons part rest =>
    set segments := part :: rest with whole
    have eof := holds.linked.eof
    have total := holds.total
    obtain ⟨numele, slack, rfl, counts, small, _⟩ := holds
    have bytes := length_bodyBytes_keptElements segments
    have elements := length_segmentElements segments
    have used : usedBytes (front ++ segmentElements segments) =
        lpHdrSize + (bodyBytes front ++ [] ++ (bodyBytes (segmentElements segments) ++ [lpEof])).length := by
      simp only [usedBytes, bodyBytes_append, append_nil, length_append, length_singleton]
      omega
    have final : usedBytes (front ++ keptElements segments) =
        lpHdrSize + (bodyBytes front ++ bodyBytes (keptElements segments) ++ [lpEof]).length := by
      simp only [usedBytes, bodyBytes_append, length_append, length_singleton]
      omega
    have smaller : usedBytes (front ++ keptElements segments) ≤ usedBytes (front ++ segmentElements segments) := by
      simp only [usedBytes, bodyBytes_append, length_append]
      omega
    obtain ⟨junk, looped⟩ := batchLoop_spec (usedBytes (front ++ segmentElements segments)) numele
      segments (bodyBytes front) [] slack used
      (by simp only [usedBytes, bodyBytes_append, length_append] at small; omega)
    rw [show closing segments = [lpEof] from rfl, ← append_assoc _ (bodyBytes (keptElements segments)), ← final,
      append_nil] at looped
    have shape : block numele (front ++ segmentElements segments) slack =
        headed (usedBytes (front ++ segmentElements segments)) numele
          (bodyBytes front ++ (bodyBytes (segmentElements segments) ++ [lpEof]) ++ slack) := by
      simp only [block, bodyBytes_append, append_assoc, singleton_append]
    obtain ⟨numele', updated, counts'⟩ := updateNumElements_headed (usedBytes (front ++ keptElements segments))
      (bodyBytes front ++ bodyBytes (keptElements segments) ++ [lpEof] ++ junk) counts
      (show ((front ++ segmentElements segments).length : Int) + (-(segments.length : Int)) =
        ((front ++ keptElements segments).length : Nat) by simp only [length_append]; omega) (by omega)
    have last := readCell_middle (headed (usedBytes (front ++ segmentElements segments)) numele
      (bodyBytes front ++ bodyBytes (keptElements segments))) [] lpEof junk
    rw [length_headed, append_nil] at last
    refine ⟨_, ?_, holds_block capacity counts' (by omega)⟩
    have offsets := length_segmentOffsets (entryOffset front) segments
    have start : segmentOffsets (entryOffset front) segments = entryOffset front ::
        segmentOffsets (entryOffset front + (bodyBytes (part.1 :: part.2)).length) rest := rfl
    rw [start, lpBatchDelete, ← start, offsets, total, ok_bind, eof, ok_bind, require_of rfl, ok_bind, shape,
      entryOffset, looped, ok_bind]
    dsimp only
    rw [Nat.sub_sub_self smaller, show usedBytes (front ++ keptElements segments) - 1 =
        lpHdrSize + (bodyBytes front ++ bodyBytes (keptElements segments)).length by
          rw [final, length_append, length_singleton]; rfl, append_assoc _ [lpEof],
      headed_append, singleton_append, last, ok_bind, require_of rfl, ok_bind, ← singleton_append,
      ← headed_append, ← append_assoc, lpSetTotalBytes_headed, ok_bind, updated, ok_bind,
      lpShrinkToFit_headed _ _ final (by omega)]
    simp only [block, bodyBytes_append]

/-- The elements whose index is not in the list. -/
def deleteIndices (base : Nat) (indices : List Nat) (elements : List (List UInt8)) : List (List UInt8) :=
  ((elements.zipIdx base).filter fun entry => entry.2 ∉ indices).map Prod.fst

theorem deleteIndices_append (base : Nat) (indices : List Nat) (front back : List (List UInt8)) :
    deleteIndices base indices (front ++ back) =
      deleteIndices base indices front ++ deleteIndices (base + front.length) indices back := by
  rw [deleteIndices, zipIdx_append, filter_append, map_append]
  rfl

theorem deleteIndices_of_notMem {base : Nat} {indices : List Nat} {elements : List (List UInt8)}
    (outside : ∀ index, base ≤ index → index < base + elements.length → index ∉ indices) :
    deleteIndices base indices elements = elements := by
  have all : ∀ entry ∈ elements.zipIdx base, decide (entry.2 ∉ indices) = true := by
    intro entry member
    obtain ⟨lower, upper, _⟩ := mem_zipIdx member
    exact decide_eq_true (outside entry.2 lower upper)
  rw [deleteIndices, filter_eq_self.mpr all, zipIdx_map_fst]

theorem deleteIndices_congr {base : Nat} {indices indices' : List Nat} {elements : List (List UInt8)}
    (same : ∀ index, base ≤ index → (index ∈ indices ↔ index ∈ indices')) :
    deleteIndices base indices elements = deleteIndices base indices' elements := by
  rw [deleteIndices]
  congr 1
  apply filter_congr
  intro entry member
  rw [decide_eq_decide, same entry.2 (mem_zipIdx member).1]

/-- Increasing indices cut the elements into segments. -/
theorem exists_segments (base start : Nat) {indices : List Nat} {elements : List (List UInt8)}
    (sorted : indices.Pairwise (· < ·)) (bounds : ∀ index ∈ indices, base ≤ index ∧ index < base + elements.length) :
    ∃ front segments, elements = front ++ segmentElements segments ∧
      deleteIndices base indices elements = front ++ keptElements segments ∧
      indices.map (fun index => start + (bodyBytes (elements.take (index - base))).length) =
        segmentOffsets (start + (bodyBytes front).length) segments := by
  induction indices generalizing base start elements with
  | nil =>
    refine ⟨elements, [], (append_nil _).symm, ?_, rfl⟩
    rw [deleteIndices_of_notMem (fun _ _ _ => not_mem_nil)]
    exact (append_nil _).symm
  | cons index indices ih =>
    obtain ⟨lower, upper⟩ := bounds index (by simp)
    rw [pairwise_cons] at sorted
    have inside : index - base < elements.length := by omega
    set front := elements.take (index - base) with before
    set x := elements[index - base]
    set rest := elements.drop (index - base + 1)
    have split : elements = front ++ x :: rest := by
      rw [← drop_eq_getElem_cons inside, take_append_drop]
    have width : front.length = index - base := by rw [length_take]; omega
    have size : elements.length = front.length + (rest.length + 1) := by
      rw [split, length_append, length_cons]
    have later : ∀ other ∈ indices, index + 1 ≤ other ∧ other < index + 1 + rest.length := by
      intro other member
      have order := sorted.1 other member
      have range := bounds other (by simp [member])
      omega
    obtain ⟨keep, segments, parts, kept, offsets⟩ :=
      ih (index + 1) (start + (bodyBytes (front ++ [x])).length) sorted.2 later
    refine ⟨front, (x, keep) :: segments, ?_, ?_, ?_⟩
    · rw [segmentElements_cons, ← parts]
      exact split
    · have start : deleteIndices base (index :: indices) front = front := by
        apply deleteIndices_of_notMem
        intro other _ below member
        rcases mem_cons.mp member with rfl | member
        · omega
        · have order := sorted.1 other member
          omega
      have removed : deleteIndices index (index :: indices) [x] = [] := by simp [deleteIndices]
      have others : deleteIndices (index + 1) (index :: indices) rest = deleteIndices (index + 1) indices rest := by
        apply deleteIndices_congr
        intro other after
        rw [mem_cons, or_iff_right (by omega)]
      rw [split, deleteIndices_append, start, width, Nat.add_sub_cancel' lower,
        show x :: rest = [x] ++ rest from rfl, deleteIndices_append, removed, nil_append, length_singleton, others, kept, keptElements_cons]
    · have next : start + (bodyBytes front).length + (bodyBytes (x :: keep)).length =
          start + (bodyBytes (front ++ [x])).length + (bodyBytes keep).length := by
        simp only [bodyBytes_append, bodyBytes_cons, bodyBytes_nil, append_nil, length_append]
        omega
      rw [map_cons, segmentOffsets, next, ← offsets]
      congr 1
      apply map_congr_left
      intro other member
      have order := sorted.1 other member
      have taken : elements.take (other - base) = front ++ [x] ++ rest.take (other - (index + 1)) := by
        rw [split, append_assoc, take_append, take_of_length_le (by omega), singleton_append,
          show other - base - front.length = other - (index + 1) + 1 by omega, take_succ_cons]
      rw [taken, bodyBytes_append, length_append, add_assoc]
end Batch
end Redis.Listpack

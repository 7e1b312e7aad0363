import Redis.Foundation.Pointwise
import Redis.Proof.Listpack.Delete

namespace Redis
open List

theorem length_zrealloc (memory : Memory) (size : Nat) : (zrealloc memory size).length = size := by
  simp only [zrealloc, length_append, length_take, length_replicate]
  omega

theorem take_zrealloc {memory : Memory} {size count : Nat} (kept : count ≤ size) (old : count ≤ memory.length) :
    (zrealloc memory size).take count = memory.take count := by
  rw [zrealloc, take_append_of_le_length (by rw [length_take]; omega), take_take, Nat.min_eq_left kept]

theorem writeBytes_end {memory : Memory} {offset : Nat} {data : List UInt8}
    (ends : memory.length = offset + data.length) :
    writeBytes memory offset data = .ok (memory.take offset ++ data) := by
  rw [writeBytes, if_pos ends.ge, drop_eq_nil_of_le ends.le, append_nil]

theorem readBytes_zrealloc {memory : Memory} (size : Nat) {offset count : Nat} {data : List UInt8}
    (read : readBytes memory offset count = .ok data) (kept : offset + count ≤ size) :
    readBytes (zrealloc memory size) offset count = .ok data := by
  rw [readBytes] at read ⊢
  split_ifs at read with inside
  rw [if_pos (by rwa [length_zrealloc]), ← Except.ok.inj read, take_drop, take_drop, take_zrealloc kept inside]

end Redis

namespace Redis.Listpack
open Foundation List

/-- The call returns a listpack with these elements, or `NULL` when they do not fit. -/
def Updated (capacity : Nat) (result : Checked (Option Memory)) (elements : List (List UInt8)) : Prop :=
  if usedBytes elements > uint32Max then result = .ok none
  else ∃ lp, result = .ok (some lp) ∧ Holds capacity lp elements

section Operations
variable {capacity : Nat} {lp : Memory} {elements : List (List UInt8)}

theorem Spliced.updated {result : Checked (Option (Memory × Option Nat))} {newp : Option Nat}
    (spliced : Spliced capacity result elements newp) :
    Updated capacity (do return (← result).map Prod.fst) elements := by
  rw [Spliced] at spliced
  rw [Updated]
  split_ifs at spliced ⊢
  · rw [spliced]
    rfl
  · obtain ⟨lp, returned, holds⟩ := spliced
    exact ⟨lp, by rw [returned]; rfl, holds⟩

theorem Holds.updated (holds : Holds capacity lp elements) : Updated capacity (.ok (some lp)) elements := by
  have small := holds.small
  rw [Updated, if_neg (by simp only [uint32Max]; omega)]
  exact ⟨lp, rfl, holds⟩

theorem holds_lpNew {size : Nat} (fits : size ≤ capacity) : Holds capacity (lpNew size) [] := by
  refine ⟨0, List.replicate (max size (lpHdrSize + 1) - (lpHdrSize + 1)) 0, ?_, ⟨by decide, .inr rfl⟩, by decide, ?_⟩
  · simp only [lpNew, block, headed, usedBytes, bodyBytes_nil, length_nil, Nat.zero_add, append_assoc,
      nil_append, singleton_append]
  · simp only [lpNew, usedBytes, bodyBytes_nil, length_append, length_leBytes, length_replicate,
      length_singleton, length_nil, lpHdrSize]
    omega

variable (holds : Holds capacity lp elements)
include holds
theorem Holds.length : ∃ lp', lpLength lp = .ok (elements.length, lp') ∧ Holds capacity lp' elements := by
  have measured := holds.linked.length (by simpa using holds.counted) holds.small.le
  rw [length_entryOffsets] at measured
  rcases measured with same | ⟨few, stored⟩
  · exact ⟨lp, same, holds⟩
  · obtain ⟨numele, slack, rfl, _, small, tight⟩ := holds
    refine ⟨block elements.length elements slack, ?_, elements.length, slack, rfl, ⟨?_, .inr rfl⟩, small, ?_⟩
    · rw [stored]
      rfl
    · simp only [lpHdrNumeleUnknown] at few
      omega
    · rw [length_block] at tight ⊢
      exact tight

theorem Holds.insertEnd {element : LpElement} {s : List UInt8} (stores : Stores element s) : Updated capacity (do
      let eofptr := (← lpGetTotalBytes lp) - 1
      return (← lpInsert lp element eofptr .before).map Prod.fst) (elements ++ [s]) := by
  have spliced := (show Holds capacity lp (elements ++ []) by rwa [append_nil]).insertBefore stores
  have last : usedBytes elements - 1 = entryOffset elements := by
    simp only [usedBytes, entryOffset]
    omega
  rw [holds.total, ok_bind, last]
  exact spliced.updated

theorem Holds.append (s : List UInt8) : Updated capacity (lpAppend lp s) (elements ++ [s]) :=
  holds.insertEnd (stores_string s)

theorem Holds.prepend (s : List UInt8) : Updated capacity (lpPrepend lp s) (s :: elements) := by
  rw [lpPrepend, holds.linked.first]
  cases elements with
  | nil => exact holds.append s
  | cons x elements =>
    have spliced := (show Holds capacity lp ([] ++ x :: elements) from holds).insertBefore (stores_string s)
    exact spliced.updated

theorem Holds.parts :
    ∃ numele, lp.take (usedBytes elements - 1) = headed (usedBytes elements) numele (bodyBytes elements) ∧
      readBytes lp lpHdrSize (usedBytes elements - lpHdrSize) = .ok (bodyBytes elements ++ [lpEof]) := by
  obtain ⟨numele, slack, rfl, _, _, _⟩ := holds
  have shape : block numele elements slack =
      headed (usedBytes elements) numele (bodyBytes elements) ++ lpEof :: slack := headed_append _ _
  refine ⟨numele, ?_, ?_⟩
  · rw [shape, take_left' (by rw [length_headed, usedBytes]; omega)]
  · have read := readBytes_append (leBytes 4 (usedBytes elements) ++ leBytes 2 numele)
      (bodyBytes elements ++ [lpEof]) slack (show lpHdrSize = _ by simp [lpHdrSize])
      (show usedBytes elements - lpHdrSize = _ by
        simp only [usedBytes, length_append, length_singleton]
        omega)
    simpa only [block, headed, append_assoc, singleton_append] using read

omit holds

/-- Both directions of the copy in a merge leave the same bytes. -/
theorem merge_copies {other : Memory} {elements' : List (List UInt8)} (first : Holds capacity lp elements)
    (second : Holds capacity other elements') {lpbytes : Nat} (size : lpbytes = usedBytes (elements ++ elements')) :
    ∃ numele, (if usedBytes elements ≥ usedBytes elements' then do
        let source ← readBytes other lpHdrSize (usedBytes elements' - lpHdrSize)
        writeBytes (zrealloc lp lpbytes) (usedBytes elements - 1) source
      else do
        let target ← memmove (zrealloc other lpbytes) (usedBytes elements - 1) lpHdrSize
          (usedBytes elements' - lpHdrSize)
        writeBytes target 0 (← readBytes lp 0 (usedBytes elements - 1)) : Checked Memory) =
      .ok (headed (usedBytes elements) numele (bodyBytes elements ++ (bodyBytes elements' ++ [lpEof]))) := by
  obtain ⟨numele, start, _⟩ := first.parts
  obtain ⟨_, _, source⟩ := second.parts
  have within := first.within
  have ends : lpbytes = usedBytes elements - 1 + (bodyBytes elements' ++ [lpEof]).length := by
    rw [size]
    simp only [usedBytes, bodyBytes_append, length_append, length_singleton]
    omega
  refine ⟨numele, ?_⟩
  rw [headed_append]
  split_ifs with larger
  · rw [source, ok_bind, writeBytes_end (by rw [length_zrealloc, ends]), take_zrealloc (by omega) (by omega), start]
  · have kept := readBytes_zrealloc lpbytes source (by
      simp only [usedBytes, bodyBytes_append, length_append] at size ⊢
      omega)
    have read : readBytes lp 0 (usedBytes elements - 1) =
        .ok (headed (usedBytes elements) numele (bodyBytes elements)) := by
      rw [readBytes, if_pos (by omega), drop_zero, start]
    have write := writeBytes_append [] ((zrealloc other lpbytes).take (usedBytes elements - 1))
      (bodyBytes elements' ++ [lpEof]) (headed (usedBytes elements) numele (bodyBytes elements))
      (show 0 = _ from rfl) (by
        rw [length_headed, length_take, length_zrealloc]
        simp only [usedBytes] at ends ⊢
        omega)
    rw [memmove, kept, ok_bind, writeBytes_end (by rw [length_zrealloc, ends]), ok_bind, read, ok_bind]
    exact write

theorem Holds.merge {other : Memory} {elements' : List (List UInt8)} (first : Holds capacity lp elements)
    (second : Holds capacity other elements') :
    Outcome (lpMerge lp other) (· = .assertion .lpMerge) fun merged =>
      Holds capacity merged (elements ++ elements') := by
  obtain ⟨lp', firstLength, first'⟩ := first.length
  obtain ⟨other', secondLength, second'⟩ := second.length
  have firstTotal : lpBytes lp = .ok _ := first.total
  have secondTotal : lpBytes other = .ok _ := second.total
  rw [lpMerge, firstTotal, ok_bind, firstLength, ok_bind]
  dsimp only
  rw [secondTotal, ok_bind, secondLength, ok_bind]
  have sum : usedBytes elements + usedBytes elements' - lpHdrSize - 1 = usedBytes (elements ++ elements') := by
    simp only [usedBytes, bodyBytes_append, length_append]
    omega
  rw [sum]
  by_cases fits : usedBytes (elements ++ elements') < uint32Max
  · obtain ⟨numele, copied⟩ := merge_copies first' second' rfl
    have counts : Counts (min (elements.length + elements'.length) lpHdrNumeleUnknown)
        (elements ++ elements').length := by
      simp only [Counts, lpHdrNumeleUnknown, length_append]
      omega
    have small : usedBytes (elements ++ elements') < 2 ^ 32 := by
      simp only [uint32Max] at fits
      omega
    have result := holds_block capacity counts small
    rw [require_of fits, ok_bind, copied, ok_bind, lpSetNumElements_headed, ok_bind, lpSetTotalBytes_headed,
      outcome_ok]
    simpa only [block, bodyBytes_append, append_assoc] using result
  · rw [require, if_neg fits]
    rfl
end Operations

/-- An operation on a plain list at the position that an index names. -/
def atPosition (elements : List (List UInt8)) (index : Int) (update : Nat → List (List UInt8)) : List (List UInt8) :=
  match seekPosition elements.length index with
  | none => elements
  | some k => update k

/-- The insertion into a plain list. -/
def insertList (elements : List (List UInt8)) (s : List UInt8) (k : Nat) : LpWhere → List (List UInt8)
  | .before => elements.take k ++ s :: elements.drop k
  | .after => elements.take (k + 1) ++ s :: elements.drop (k + 1)
  | .replace => elements.set k s

/-- The same operations on a plain list of byte strings. -/
def listOp (elements : List (List UInt8)) : LpOp → List (List UInt8)
  | .insertString s index position => atPosition elements index fun k => insertList elements s.1 k position
  | .insertInteger lval index position =>
    atPosition elements index fun k => insertList elements (signedDecimal lval.toInt) k position
  | .append s => elements ++ [s.1]
  | .prepend s => s.1 :: elements
  | .replace index s => atPosition elements index fun k => elements.set k s.1
  | .delete index => atPosition elements index elements.eraseIdx
  | .deleteRangeWithEntry index num => atPosition elements index fun k => elements.take k ++ elements.drop (k + num)
  | .deleteRange index num => atPosition elements index fun k => elements.take k ++ elements.drop (k + num)
  | .batchDelete indices =>
    if indices.Pairwise (· < ·) ∧ ∀ index ∈ indices, index < elements.length then
      deleteIndices 0 indices elements
    else elements
  | .length => elements

section Simulation
variable {capacity : Nat} {lp : Memory} {elements : List (List UInt8)}
variable (holds : Holds capacity lp elements)
include holds
theorem Holds.atElement (index : Int) {update : Nat → Checked (Option Memory)} {change : Nat → List (List UInt8)}
    (step : ∀ front x back, elements = front ++ x :: back →
      Updated capacity (update (entryOffset front)) (change front.length)) :
    Updated capacity (atElement lp index update) (atPosition elements index change) := by
  rw [Listpack.atElement, atPosition, holds.seek]
  cases found : seekPosition elements.length index with
  | none => exact holds.updated
  | some k =>
    have inside := (seekPosition_lt found).1
    have split : elements = elements.take k ++ elements[k] :: elements.drop (k + 1) := by
      rw [← drop_eq_getElem_cons inside, take_append_drop]
    have result := step _ _ _ split
    rw [length_take, Nat.min_eq_left inside.le] at result
    exact result

theorem Holds.insert {element : LpElement} {s : List UInt8}
    (stores : Stores element s) (index : Int) (position : LpWhere) :
    Updated capacity (Listpack.atElement lp index fun p => do return (← lpInsert lp element p position).map Prod.fst)
      (atPosition elements index fun k => insertList elements s k position) := by
  apply holds.atElement
  rintro front x back rfl
  cases position with
  | before => simpa [insertList] using (holds.insertBefore stores).updated
  | after =>
    have front' : (front ++ x :: back).take (front.length + 1) = front ++ [x] := by
      rw [take_length_add_append, take_succ_cons, take_zero]
    simpa [insertList, front'] using (holds.insertAfter stores).updated
  | replace => simpa [insertList] using (holds.replace stores).updated

theorem Holds.deleteRangeAt (index : Int) (num : Nat) :
    Updated capacity (Listpack.atElement lp index fun p => do return some (← lpDeleteRangeWithEntry lp p num).1)
      (atPosition elements index fun k => elements.take k ++ elements.drop (k + num)) := by
  apply holds.atElement
  rintro front x back rfl
  by_cases nothing : num = 0
  · subst nothing
    have same : lpDeleteRangeWithEntry lp (entryOffset front) 0 = .ok (lp, some (entryOffset front)) := by
      rw [lpDeleteRangeWithEntry, lpBytes, holds.total]
      rfl
    rw [same, Nat.add_zero, take_append_drop]
    exact holds.updated
  · obtain ⟨lp', deleted, result⟩ := holds.deleteRangeWithEntry (by simp) nothing
    rw [deleted, take_left, drop_length_add_append]
    exact result.updated

theorem mapM_lpSeek (indices : List Nat) :
    indices.mapM (fun index : Nat => lpSeek lp (index : Int)) = .ok (indices.map fun index =>
      if index < elements.length then some (entryOffset (elements.take index)) else none) := by
  have sought (index : Nat) : lpSeek lp (index : Int) =
      .ok (if index < elements.length then some (entryOffset (elements.take index)) else none) := by
    have position : seekPosition elements.length (index : Int) =
        if index < elements.length then some index else none := by
      have natural : ¬((index : Int) < 0) := by omega
      simp only [seekPosition, natural, if_false, Int.natCast_nonneg, true_and, Nat.cast_lt, Int.toNat_natCast]
    rw [holds.seek, position]
    split_ifs <;> rfl
  induction indices with
  | nil => rfl
  | cons index indices ih =>
    rw [mapM_cons, sought, ih]
    rfl

theorem Holds.batch (indices : List Nat) :
    Updated capacity (applyOp lp (.batchDelete indices)) (listOp elements (.batchDelete indices)) := by
  rw [applyOp, mapM_lpSeek holds, ok_bind, listOp]
  have known : (indices.map fun index =>
      if index < elements.length then some (entryOffset (elements.take index)) else none).all Option.isSome ↔
      ∀ index ∈ indices, index < elements.length := by
    simp only [all_map, all_eq_true, Function.comp_apply]
    refine forall₂_congr fun index _ => ?_
    split_ifs with inside <;> simp [inside]
  by_cases valid : indices.Pairwise (· < ·) ∧ ∀ index ∈ indices, index < elements.length
  · rw [if_pos valid, if_pos (by rw [known]; exact valid)]
    obtain ⟨front, segments, parts, kept, offsets⟩ := exists_segments 0 lpHdrSize valid.1
      (fun index member => ⟨Nat.zero_le _, by simpa using valid.2 index member⟩)
    have positions : (indices.map fun index =>
        if index < elements.length then some (entryOffset (elements.take index)) else none).reduceOption =
        segmentOffsets (entryOffset front) segments := by
      have reduced (cells : List (Option Nat)) : cells.reduceOption = cells.filterMap id := rfl
      rw [entryOffset, ← offsets, reduced, filterMap_map, ← filterMap_eq_map]
      apply filterMap_congr
      intro index member
      simp only [Function.comp_apply, valid.2 index member, if_true, id_eq, Nat.sub_zero, entryOffset]
    obtain ⟨lp', deleted, result⟩ := (parts ▸ holds : Holds capacity lp (front ++ segmentElements segments)).batchDelete
    rw [positions, deleted, kept]
    exact result.updated
  · rw [if_neg valid, if_neg (by rw [known]; exact valid)]
    exact holds.updated

/-- Every operation has the same effect on the listpack and on the plain list. -/
theorem Holds.applyOp (op : LpOp) : Updated capacity (applyOp lp op) (listOp elements op) := by
  cases op with
  | insertString s index position => exact holds.insert (stores_string s.1) index position
  | insertInteger lval index position =>
    exact holds.insert (stores_integer lval.minValue_le_toInt lval.toInt_lt) index position
  | append s => exact holds.append s.1
  | prepend s => exact holds.prepend s.1
  | replace index s => exact holds.insert (stores_string s.1) index .replace
  | delete index =>
    apply holds.atElement
    rintro front x back rfl
    obtain ⟨lp', deleted, result⟩ := holds.delete
    rw [deleted]
    have erased : (front ++ x :: back).eraseIdx front.length = front ++ back := by
      rw [eraseIdx_append_of_length_le le_rfl, Nat.sub_self, eraseIdx_cons_zero]
    rw [erased]
    exact result.updated
  | deleteRangeWithEntry index num => exact holds.deleteRangeAt index num
  | deleteRange index num =>
    obtain ⟨lp', deleted, result⟩ := holds.deleteRange index num
    rw [Listpack.applyOp, deleted]
    exact result.updated
  | batchDelete indices => exact holds.batch indices
  | length =>
    obtain ⟨lp', measured, result⟩ := holds.length
    rw [Listpack.applyOp, measured]
    exact result.updated
end Simulation

def poolSpec (pool : List (List (List UInt8))) : PoolOp → List (List (List UInt8)) × Unit
  | .new _ => (pool ++ [[]], ())
  | .apply index op =>
    match pool[index]? with
    | none => (pool, ())
    | some elements => (pool.set index (listOp elements op), ())
  | .merge first second =>
    if first = second then (pool, ())
    else match pool[first]?, pool[second]? with
      | some elements, some others => ((pool.set first (elements ++ others)).eraseIdx second, ())
      | _, _ => (pool, ())

/-- The capacity that a call of `lpNew` asks for. -/
def PoolOp.capacity : PoolOp → Nat
  | .new capacity => capacity
  | _ => 0

/-- The largest capacity that a run asks for. -/
def largestCapacity (ops : List PoolOp) : Nat := (ops.map PoolOp.capacity).foldr max 0

/-- A `NULL` result or the assertion of a merge ends a run. -/
def poolStops (fault : Fault) : Prop := fault = .nullPointer ∨ fault = .assertion .lpMerge

/-- Each step of a run keeps every listpack equal to its plain list. -/
theorem poolStep_simulates {capacity : Nat} {pool : List Memory} {spec : List (List (List UInt8))} (op : PoolOp)
    (related : List.Forall₂ (Holds capacity) pool spec) (guarded : op.capacity ≤ capacity) :
    Outcome (poolStep pool op) poolStops fun result =>
      List.Forall₂ (Holds capacity) result.1 (poolSpec spec op).1 ∧ result.2 = (poolSpec spec op).2 := by
  cases op with
  | new size => exact ⟨rel_append related (.cons (holds_lpNew guarded) .nil), rfl⟩
  | apply index op =>
    rw [poolStep, poolSpec]
    rcases forall₂_getElem? related index with ⟨absent, missing⟩ | ⟨lp, elements, found, present, holds⟩
    · rw [absent, missing]
      exact ⟨related, rfl⟩
    · rw [found, present]
      have updated := holds.applyOp op
      rw [Updated] at updated
      split_ifs at updated
      · dsimp only
        rw [updated]
        exact .inl rfl
      · obtain ⟨lp', returned, holds'⟩ := updated
        dsimp only
        rw [returned]
        exact ⟨forall₂_set related index holds', rfl⟩
  | merge first second =>
    rw [poolStep, poolSpec]
    by_cases same : first = second
    · rw [if_pos same, if_pos same]
      exact ⟨related, rfl⟩
    rw [if_neg same, if_neg same]
    rcases forall₂_getElem? related first with ⟨absent, missing⟩ | ⟨lp, elements, found, present, holds⟩
    · rw [absent, missing]
      exact ⟨related, rfl⟩
    rcases forall₂_getElem? related second with ⟨absent, missing⟩ | ⟨other, others, found', present', holds'⟩
    · rw [absent, missing, found, present]
      exact ⟨related, rfl⟩
    · rw [found, present, found', present']
      have merged := holds.merge holds'
      dsimp only
      cases result : lpMerge lp other with
      | error fault => exact .inr (merged.of_error result)
      | ok target => exact ⟨forall₂_eraseIdx (forall₂_set related first (merged.of_ok result)) second, rfl⟩

theorem capacity_le_largestCapacity {op : PoolOp} {ops : List PoolOp} (member : op ∈ ops) :
    op.capacity ≤ largestCapacity ops := by
  induction ops with
  | nil => cases member
  | cons head ops ih =>
    rcases mem_cons.mp member with rfl | member
    · exact le_max_left _ _
    · exact le_trans (ih member) (le_max_right _ _)

theorem guarded_capacity {capacity : Nat} {ops : List PoolOp} (bounded : ∀ op ∈ ops, op.capacity ≤ capacity)
    (pool : List Memory) : Guarded poolStep (fun _ op => op.capacity ≤ capacity) pool ops := by
  induction ops generalizing pool with
  | nil => trivial
  | cons op ops ih =>
    exact ⟨bounded op (by simp), fun next _ _ => ih (fun other member => bounded other (by simp [member])) next⟩

/-- What a caller observes of a listpack is what the plain list predicts.
The total size is the number of bytes up to the end mark, and the block has no other bytes
except for a larger capacity that a call of `lpNew` asked for. -/
def Observes (capacity : Nat) (lp : Memory) (elements : List (List UInt8)) : Prop :=
  readElements lp = .ok elements ∧ (∃ lp', lpLength lp = .ok (elements.length, lp')) ∧
    ∃ total, lpGetTotalBytes lp = .ok total ∧ readCell lp (total - 1) = .ok lpEof ∧
      total ≤ lp.length ∧ lp.length ≤ max total capacity

theorem Holds.observes {capacity : Nat} {lp : Memory} {elements : List (List UInt8)}
    (holds : Holds capacity lp elements) : Observes capacity lp elements := by
  obtain ⟨lp', measured, _⟩ := holds.length
  refine ⟨holds.readElements, ⟨lp', measured⟩, usedBytes elements, holds.total, holds.linked.eof, holds.within, ?_⟩
  obtain ⟨_, _, _, _, _, tight⟩ := holds
  exact tight

/-- The listpacks of every run behave as plain lists of byte strings. -/
theorem listpack_refines_list (ops : List PoolOp) : Outcome (run poolStep [] ops) poolStops fun result =>
      List.Forall₂ (Observes (largestCapacity ops)) result.1 (specRun poolSpec [] ops).1 := by
  have simulated := run_refines (fun pool spec op related guarded => poolStep_simulates op related guarded) ops [] []
    .nil (guarded_capacity (fun op member => capacity_le_largestCapacity member) [])
  exact simulated.mono fun result related => related.1.imp fun _ _ holds => holds.observes

end Redis.Listpack

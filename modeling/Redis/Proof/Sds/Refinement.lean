import Redis.Proof.Sds.Trim

namespace Redis
open Foundation List
variable {content : List UInt8} {contents : List (List UInt8)} {s : Sds}

/-- The bytes a reader of the string sees. -/
def sdsContent (s : Sds) : Checked (List UInt8) := do
  s.read 0 (← sdslen s)

/-- The type bits of the string's header. -/
def sdsType (s : Sds) : Checked SdsType := return SdsType.ofFlags (← s.flags)

/-- What a string guarantees to its readers and to the functions that change it. -/
structure SdsRefines (s : Sds) (content : List UInt8) : Prop where
  content_eq : sdsContent s = .ok content
  terminated : s.read content.length 1 = .ok [0]
  header : ∃ type alloc, sdsType s = .ok type ∧ type ≠ .unused ∧ s.offset = sdsHdrSize type ∧
    sdsalloc s = .ok alloc ∧ content.length ≤ alloc ∧ alloc ≤ sdsTypeMaxSize type ∧
    s.offset + alloc + 1 ≤ s.memory.length

theorem SdsHolds.refines (holds : SdsHolds s content) : SdsRefines s content := by
  obtain ⟨type, alloc, payload, rfl, layout⟩ := holds
  have inside := layout.inside
  have room := layout.room
  constructor
  · rw [sdsContent, layout.sdslen_eq, ok_bind, layout.read_prefix (Nat.le_refl _), take_length]
  · have last := congrArg (List.drop content.length) layout.stored
    rw [drop_take, drop_left, Nat.add_sub_cancel_left] at last
    rw [read_sdsAt, readBytes_of room, last]
  · refine ⟨type, alloc, ?_, layout.used, rfl, layout.sdsalloc_eq, layout.below, layout.fits, ?_⟩
    · rw [sdsType, layout.flags_eq, ok_bind, ofFlags_sdsFlags layout.used]
      rfl
    · rw [length_sdsAt, sdsAt]
      dsimp only
      omega

namespace SdsEdit

def spec (content : List UInt8) : SdsEdit → List UInt8
  | makeRoomFor _ _ => content
  | fill _ _ data => content ++ data
  | decrLen count => content.take (content.length - count)
  | catlen data => content ++ data
  | cpylen data => data
  | growzero len => content ++ List.replicate (len - content.length) 0
  | range start stop => bytesBetween content start stop
  | trim cset => trimmed (cString cset).contains content
  | substr start len => (content.drop start).take len
  | clear => []
  | resize size _ => content.take size
  | removeFreeSpace _ => content

/-- The caller writes only into the room it asked for, and lengths stay in range. -/
def Permitted (content : List UInt8) : SdsEdit → Prop
  | makeRoomFor _ addlen => content.length + addlen < 2 ^ 62
  | fill _ addlen data => data.length ≤ addlen ∧ content.length + addlen < 2 ^ 62
  | decrLen count => count ≤ content.length
  | catlen data => content.length + data.length < 2 ^ 62
  | cpylen data => data.length < 2 ^ 62
  | growzero len => len < 2 ^ 62
  | range start stop => (-2 ^ 63 ≤ start ∧ start < 2 ^ 63) ∧ -2 ^ 63 ≤ stop ∧ stop < 2 ^ 63
  | resize size _ => size < 2 ^ 62
  | _ => True

instance (content : List UInt8) (edit : SdsEdit) : Decidable (edit.Permitted content) := by
  cases edit <;> unfold Permitted <;> infer_instance

/-- The smallest header is not incremented by zero, a range does not start before the string, and the bytes at
which trimming stops are not zero. -/
def Regular (type : SdsType) (content : List UInt8) : SdsEdit → Prop
  | fill _ addlen _ => ¬(type = .type5 ∧ addlen = 0)
  | decrLen count => ¬(type = .type5 ∧ count = 0)
  | range start stop => content = [] ∨ 0 ≤ sdsIndex content.length start ∨ sdsIndex content.length stop < 0
  | trim cset => TrimRegular cset content
  | _ => True

instance (type : SdsType) (content : List UInt8) (edit : SdsEdit) : Decidable (edit.Regular type content) := by
  cases edit <;> unfold Regular <;> infer_instance

theorem apply_yields (allocator : Allocator) {type : SdsType} {edit : SdsEdit} (holds : SdsHolds s content)
    (small : content.length < 2 ^ 62) (kind : sdsType s = .ok type) (permitted : edit.Permitted content)
    (regular : edit.Regular type content) : SdsYields (edit.apply allocator s) (edit.spec content) := by
  have header : ∃ alloc payload, s = sdsAt type content.length alloc payload ∧
      SdsLayout type alloc payload content := by
    obtain ⟨type', alloc, payload, rfl, layout⟩ := holds
    rw [sdsType, layout.flags_eq, ok_bind, ofFlags_sdsFlags layout.used] at kind
    cases kind
    exact ⟨alloc, payload, rfl, layout⟩
  cases edit with
  | makeRoomFor greedy addlen => exact sdsMakeRoomForGeneric_yields allocator holds addlen greedy permitted
  | fill greedy addlen data =>
    obtain ⟨alloc, payload, rfl, layout⟩ := header
    exact fill_yields allocator layout greedy permitted.1 permitted.2 regular
  | decrLen count =>
    obtain ⟨alloc, payload, rfl, layout⟩ := header
    exact decrLen_yields layout permitted regular
  | catlen data => exact sdscatlen_yields allocator holds data permitted
  | cpylen data => exact sdscpylen_yields allocator holds data permitted
  | growzero len => exact sdsgrowzero_yields allocator holds len permitted
  | range start stop => exact sdsrange_yields holds small permitted.1.1 permitted.1.2 permitted.2.2 regular
  | trim cset => exact sdstrim_yields holds regular
  | substr start len => exact sdssubstr_yields holds start len
  | clear => exact sdsclear_yields holds
  | resize size wouldRegrow => exact sdsResize_yields allocator holds size wouldRegrow permitted
  | removeFreeSpace wouldRegrow => exact sdsRemoveFreeSpace_yields allocator holds wouldRegrow small

theorem length_spec {edit : SdsEdit} (small : content.length < 2 ^ 62) (permitted : edit.Permitted content) :
    (edit.spec content).length < 2 ^ 62 := by
  cases edit with
  | fill greedy addlen data =>
    rw [spec, length_append]
    exact (Nat.add_le_add_left permitted.1 _).trans_lt permitted.2
  | catlen data =>
    rw [spec, length_append]
    exact permitted
  | growzero len =>
    have bound : len < 2 ^ 62 := permitted
    rw [spec, length_append, length_replicate]
    omega
  | cpylen data => exact permitted
  | makeRoomFor greedy addlen => exact small
  | decrLen count => exact (length_take_le' _ _).trans_lt small
  | range start stop =>
    rw [spec, bytesBetween, length_drop]
    exact (Nat.sub_le _ _).trans_lt ((length_take_le' _ _).trans_lt small)
  | trim cset =>
    have right := (List.rdropWhile_prefix (cString cset).contains
      (content.dropWhile (cString cset).contains)).length_le
    exact (right.trans (length_dropWhile_le _ _)).trans_lt small
  | substr start len =>
    have cut := length_take_le' len (content.drop start)
    rw [length_drop] at cut
    exact (cut.trans (Nat.sub_le _ _)).trans_lt small
  | clear => exact Nat.two_pow_pos 62
  | resize size wouldRegrow => exact (length_take_le' _ _).trans_lt small
  | removeFreeSpace wouldRegrow => exact small

end SdsEdit

namespace SdsCall

/-- The call names strings of the program and keeps to the contract of its function. -/
def Permitted (pool : List Sds) : SdsCall → Prop
  | newlen init => init.initlen < 2 ^ 62
  | dup index => index < pool.length
  | edit index change =>
    match pool[index]? with
    | none => False
    | some s =>
      match sdsContent s with
      | .ok content => change.Permitted content
      | .error _ => False

/-- The call does not meet the cases that the functions miss. -/
def Regular (pool : List Sds) : SdsCall → Prop
  | newlen _ => True
  | dup _ => True
  | edit index change =>
    match pool[index]? with
    | none => True
    | some s =>
      match sdsType s, sdsContent s with
      | .ok type, .ok content => change.Regular type content
      | _, _ => True

instance (pool : List Sds) (call : SdsCall) : Decidable (call.Permitted pool) :=
  match call with
  | newlen init => inferInstanceAs (Decidable (init.initlen < 2 ^ 62))
  | dup index => inferInstanceAs (Decidable (index < pool.length))
  | edit index change =>
    match cell : pool[index]? with
    | none => .isFalse (by simp [Permitted, cell])
    | some s =>
      match read : sdsContent s with
      | .ok content => decidable_of_iff (change.Permitted content) (by simp [Permitted, cell, read])
      | .error fault => .isFalse (by simp [Permitted, cell, read])

instance (pool : List Sds) (call : SdsCall) : Decidable (call.Regular pool) :=
  match call with
  | newlen _ => .isTrue trivial
  | dup _ => .isTrue trivial
  | edit index change =>
    match cell : pool[index]? with
    | none => .isTrue (by simp [Regular, cell])
    | some s =>
      match kind : sdsType s, read : sdsContent s with
      | .ok type, .ok content => decidable_of_iff (change.Regular type content) (by simp [Regular, cell, kind, read])
      | .error fault, _ => .isTrue (by simp [Regular, cell, kind])
      | .ok type, .error fault => .isTrue (by simp [Regular, cell, kind, read])

/-- The call on plain byte strings; bytes that were never written are arbitrary. -/
def Spec (contents : List (List UInt8)) (call : SdsCall) (result : List (List UInt8) × Unit) : Prop :=
  match call with
  | newlen init => ∃ content, init.Content content ∧ result = (contents ++ [content], ())
  | dup index => ∃ content, contents[index]? = some content ∧ result = (contents ++ [content], ())
  | edit index change =>
    ∃ content, contents[index]? = some content ∧ result = (contents.set index (change.spec content), ())

end SdsCall

/-- The relation of the simulation. -/
def PoolHolds (pool : List Sds) (contents : List (List UInt8)) : Prop :=
  List.Forall₂ (fun s content => SdsHolds s content ∧ content.length < 2 ^ 62) pool contents

theorem PoolHolds.add {pool : List Sds} (holds : PoolHolds pool contents) (new : SdsHolds s content)
    (small : content.length < 2 ^ 62) : PoolHolds (pool ++ [s]) (contents ++ [content]) :=
  rel_append holds (.cons ⟨new, small⟩ .nil)

theorem PoolHolds.get {pool : List Sds} {index : Nat} (holds : PoolHolds pool contents)
    (found : pool[index]? = some s) :
    ∃ content, contents[index]? = some content ∧ SdsHolds s content ∧ content.length < 2 ^ 62 := by
  induction holds generalizing index with
  | nil => cases found
  | cons first rest ih =>
    cases index with
    | zero =>
      cases found
      exact ⟨_, rfl, first⟩
    | succ index => exact ih found

theorem PoolHolds.set {pool : List Sds} (holds : PoolHolds pool contents) (index : Nat) (new : SdsHolds s content)
    (small : content.length < 2 ^ 62) : PoolHolds (pool.set index s) (contents.set index content) := by
  induction holds generalizing index with
  | nil => exact .nil
  | cons first rest ih =>
    cases index with
    | zero => exact .cons ⟨new, small⟩ rest
    | succ index => exact .cons first (ih index)

theorem sdsContent_of_holds (holds : SdsHolds s content) : sdsContent s = .ok content := holds.refines.content_eq

theorem SdsInit.length_content {init : SdsInit} (meaning : init.Content content) : content.length = init.initlen := by
  cases init with
  | bytes data => exact congrArg List.length meaning
  | null initlen => exact (congrArg List.length meaning).trans length_replicate
  | noinit initlen => exact meaning

theorem sdsStep_refines {allowed : Fault → Prop} (pool : List Sds) (contents : List (List UInt8))
    (op : Allocator × SdsCall) (holds : PoolHolds pool contents)
    (guard : op.2.Permitted pool ∧ op.2.Regular pool) :
    Outcome (sdsStep pool op) allowed fun result =>
      ∃ next, op.2.Spec contents (next, result.2) ∧ PoolHolds result.1 next := by
  obtain ⟨allocator, call⟩ := op
  obtain ⟨permitted, regular⟩ := guard
  cases call with
  | newlen init =>
    obtain ⟨content, meaning, s, made, new⟩ := sdsnewlen_yields allocator init permitted
    have small : content.length < 2 ^ 62 := SdsInit.length_content meaning ▸ permitted
    rw [sdsStep, made]
    exact ⟨contents ++ [content], ⟨content, meaning, rfl⟩, holds.add new small⟩
  | dup index =>
    have inside : index < pool.length := permitted
    obtain ⟨content, found, old, small⟩ := holds.get (getElem?_eq_getElem inside)
    obtain ⟨s, made, new⟩ := sdsdup_yields allocator old small
    rw [sdsStep, readCell_of (getElem?_eq_getElem inside), ok_bind, made]
    exact ⟨contents ++ [content], ⟨content, found, rfl⟩, holds.add new small⟩
  | edit index edit =>
    cases cell : pool[index]? with
    | none =>
      simp only [SdsCall.Permitted, cell] at permitted
    | some s =>
      obtain ⟨content, found, old, small⟩ := holds.get cell
      obtain ⟨type, alloc, kind, -⟩ := old.refines.header
      simp only [SdsCall.Permitted, cell, sdsContent_of_holds old] at permitted
      simp only [SdsCall.Regular, cell, kind, sdsContent_of_holds old] at regular
      obtain ⟨s', made, new⟩ := SdsEdit.apply_yields allocator old small kind permitted regular
      rw [sdsStep, readCell_of cell, ok_bind, made]
      exact ⟨contents.set index (edit.spec content), ⟨content, found, rfl⟩,
        holds.set index new (SdsEdit.length_spec small permitted)⟩

/-- The calls return, and every string of the program is the byte string that plain bytes give. -/
def SdsRunRefines (ops : List (Allocator × SdsCall)) : Prop :=
  ∃ pool outs contents, run sdsStep [] ops = .ok (pool, outs) ∧
    SpecRuns (fun contents (op : Allocator × SdsCall) => op.2.Spec contents) [] ops (contents, outs) ∧
    List.Forall₂ SdsRefines pool contents

theorem sds_strings_refine_bytes (ops : List (Allocator × SdsCall))
    (permitted : Guarded sdsStep (fun pool op => op.2.Permitted pool) [] ops)
    (regular : Guarded sdsStep (fun pool op => op.2.Regular pool) [] ops) : SdsRunRefines ops := by
  have outcome := run_refines_choice PoolHolds (@sdsStep_refines fun _ => False) ops [] [] .nil
    (permitted.and regular)
  obtain ⟨⟨pool, outs⟩, finished, contents, runs, holds⟩ := outcome.exists_ok
  exact ⟨pool, outs, contents, finished, runs, holds.imp fun s content held => held.1.refines⟩

/-- An allocator without slack whose memory is not cleared. -/
def exactAllocator : Allocator where
  malloc size := List.replicate size 170
  nallocx := none
  malloc_enough size := by rw [length_replicate]
  nallocx_enough _ member := by cases member

/-- The calls with the allocator without slack. -/
def exactCalls (calls : List SdsCall) : List (Allocator × SdsCall) := calls.map fun call => (exactAllocator, call)

theorem sds_strings_refine_bytes_example :
    SdsRunRefines (exactCalls [.newlen (.bytes [97, 98, 99]), .edit 0 (.fill true 4 [100]), .dup 0,
      .edit 1 (.trim [97, 98]), .edit 0 (.resize 2 false)]) :=
  sds_strings_refine_bytes _ (by decide +kernel) (by decide +kernel)

/-- A created and edited string refines only the edited bytes. -/
theorem content_of_sdsRunRefines {data : List UInt8} {change : SdsEdit}
    (refines : SdsRunRefines (exactCalls [.newlen (.bytes data), .edit 0 change])) :
    ∃ s outs, run sdsStep [] (exactCalls [.newlen (.bytes data), .edit 0 change]) = .ok ([s], outs) ∧
      sdsContent s = .ok (change.spec data) := by
  obtain ⟨pool, outs, contents, finished, runs, related⟩ := refines
  obtain ⟨_, _, _, _, ⟨_, rfl, created⟩, ⟨next, _, final, last, ⟨_, found, edited⟩, stopped, ended⟩, result⟩ := runs
  have same : (final, last) = (next, []) := stopped
  cases created
  cases edited
  cases found
  cases same
  cases ended
  cases result
  cases related with
  | cons first rest =>
    cases rest
    exact ⟨_, _, finished, first.content_eq⟩

/-- A zero increment on the smallest header. -/
def zeroIncrement : List (Allocator × SdsCall) := exactCalls [.newlen (.bytes [97]), .edit 0 (.fill true 0 [])]

/-- A range that starts before the string. -/
def earlyRange : List (Allocator × SdsCall) := exactCalls [.newlen (.bytes [97]), .edit 0 (.range (-2) (-1))]

/-- A zero byte at the end of a trimmed string. -/
def zeroTrim : List (Allocator × SdsCall) := exactCalls [.newlen (.bytes [97, 0]), .edit 0 (.trim [98])]

theorem sds_strings_miss_bytes :
    (Guarded sdsStep (fun pool op => op.2.Permitted pool) [] zeroIncrement ∧ ¬SdsRunRefines zeroIncrement) ∧
      (Guarded sdsStep (fun pool op => op.2.Permitted pool) [] earlyRange ∧ ¬SdsRunRefines earlyRange) ∧
        (Guarded sdsStep (fun pool op => op.2.Permitted pool) [] zeroTrim ∧ ¬SdsRunRefines zeroTrim) := by
  refine ⟨⟨by decide +kernel, ?_⟩, ⟨by decide +kernel, ?_⟩, ⟨by decide +kernel, ?_⟩⟩
  · intro refines
    obtain ⟨s, outs, finished, -⟩ := content_of_sdsRunRefines refines
    have stopped : run sdsStep [] zeroIncrement = .error (.assertion .sdsIncrLen) := by decide +kernel
    cases stopped.symm.trans finished
  · intro refines
    obtain ⟨s, outs, finished, content⟩ := content_of_sdsRunRefines refines
    have ran : run sdsStep [] earlyRange = .ok ([sdsAt .type5 0 0 [0, 0]], [(), ()]) := by decide +kernel
    cases ran.symm.trans finished
    exact absurd content (by decide +kernel)
  · intro refines
    obtain ⟨s, outs, finished, content⟩ := content_of_sdsRunRefines refines
    have ran : run sdsStep [] zeroTrim = .ok ([sdsAt .type5 1 0 [97, 0, 0]], [(), ()]) := by decide +kernel
    cases ran.symm.trans finished
    exact absurd content (by decide +kernel)

end Redis

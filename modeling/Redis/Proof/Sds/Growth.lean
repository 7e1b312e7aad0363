import Redis.Proof.Sds.Content

namespace Redis
open Foundation List
variable {content : List UInt8} {payload : Memory} {type : SdsType} (allocator : Allocator)
variable {size count newlen alloc : Nat} {oldtype : SdsType} {s : Sds}

theorem sdsReqType_used (size : Nat) : sdsReqType size ≠ .unused := by
  unfold sdsReqType
  split_ifs <;> decide

theorem le_sdsTypeMaxSize_sdsReqType (addressable : size < 2 ^ 64) : size ≤ sdsTypeMaxSize (sdsReqType size) := by
  unfold sdsReqType
  split_ifs with small medium large huge <;> simp only [sdsTypeMaxSize] <;> omega

theorem avoidType5_used (used : type ≠ .unused) : avoidType5 type ≠ .unused := by
  unfold avoidType5
  split_ifs with small
  · decide
  · exact used

theorem sdsTypeMaxSize_le_avoidType5 (type : SdsType) : sdsTypeMaxSize type ≤ sdsTypeMaxSize (avoidType5 type) := by
  cases type <;> decide

theorem avoidType5_ne (type : SdsType) : avoidType5 type ≠ .type5 := by
  cases type <;> decide

/-- A reallocation keeps the header and the bytes of the payload that fit. -/
theorem realloc_header (header payload : Memory) (size : Nat) :
    ∃ payload', allocator.realloc (header ++ payload) (header.length + size) = header ++ payload' ∧
      size ≤ payload'.length ∧ payload'.take (min size payload.length) = payload.take size := by
  have enough := allocator.malloc_enough (header.length + size)
  have kept : (header ++ payload).take (header.length + size) = header ++ payload.take size := by
    rw [take_append, take_of_length_le (Nat.le_add_right _ _), Nat.add_sub_cancel_left]
  have cut : (payload.take size).length = min size payload.length := length_take
  refine ⟨payload.take size ++ (allocator.malloc (header.length + size)).drop
    (min (header.length + size) (header ++ payload).length), ?_, ?_, ?_⟩
  · rw [Allocator.realloc, kept, append_assoc]
  · rw [length_append, length_drop, length_append]
    omega
  · rw [← cut, take_left]

theorem stored_of_take {payload payload' : Memory}
    (stored : payload.take (content.length + 1) = content ++ [0]) (enough : content.length < count)
    (same : payload'.take count = payload.take count) : payload'.take (content.length + 1) = content ++ [0] := by
  have shorter := congrArg (List.take (content.length + 1)) same
  rw [take_take, take_take, Nat.min_eq_left enough] at shorter
  rw [shorter, stored]

/-- The payload moves to a new allocation with garbage in its header and behind the copied bytes. -/
theorem sdsMoveTo_eq (oldtype : SdsType) (len alloc : Nat) (used : type ≠ .unused)
    (within : count ≤ payload.length) (enough : count ≤ size) :
    ∃ len' alloc' payload', sdsMoveTo allocator (sdsAt oldtype len alloc payload) oldtype type
        (sdsHdrSize type + size) count = .ok (sdsAt type len' alloc' payload') ∧
      size ≤ payload'.length ∧ payload'.take count = payload.take count := by
  have fresh := allocator.malloc_enough (sdsHdrSize type + size)
  generalize block : allocator.malloc (sdsHdrSize type + size) = memory at fresh
  have copied : (payload.take count).length = count := by
    rw [length_take]
    omega
  have written : writeBytes memory (sdsHdrSize type + 0) (payload.take count) =
      .ok (memory.take (sdsHdrSize type) ++ (payload.take count ++ memory.drop (sdsHdrSize type + count))) := by
    rw [Nat.add_zero, writeBytes_of (by omega), copied, append_assoc]
  have front : (memory.take (sdsHdrSize type)).length = sdsHdrSize type := by
    rw [length_take]
    omega
  obtain ⟨len', alloc', coded⟩ := writeBefore_code used
    (show sdsHdrSize type ≤ (memory.take (sdsHdrSize type) ++
      (payload.take count ++ memory.drop (sdsHdrSize type + count))).length by
        rw [length_append]
        omega)
  refine ⟨len', alloc', payload.take count ++ memory.drop (sdsHdrSize type + count), ?_, ?_, ?_⟩
  · rw [sdsMoveTo, block, read_sdsAt, readBytes_of (by omega), ok_bind, drop_zero, Sds.write]
    rw [written, ok_bind, pure_bind, allocation_sdsAt, ok_bind, coded]
    nth_rewrite 1 [← front]
    rw [drop_left]
  · rw [length_append, length_drop]
    omega
  · nth_rewrite 1 [← copied]
    rw [take_left]

theorem sdsPreallocated_bounds (greedy : Bool) {reqlen : Nat} (small : reqlen < 2 ^ 62) :
    reqlen ≤ sdsPreallocated greedy reqlen ∧ sdsPreallocated greedy reqlen < 2 ^ 63 := by
  unfold sdsPreallocated sdsMaxPrealloc
  cases greedy with
  | false => exact ⟨Nat.le_refl _, by simp only [Bool.false_eq_true, if_false]; omega⟩
  | true =>
    simp only [if_true]
    split_ifs with short
    · omega
    · rw [Nat.mod_eq_of_lt (by omega)]
      omega

/-- The grown payload is described by the clipped usable size. -/
theorem SdsLayout.of_usable (used : type ≠ .unused) (large : type ≠ .type5)
    (fits : newlen ≤ sdsTypeMaxSize type) (stored : payload.take (content.length + 1) = content ++ [0])
    (room : newlen + 1 ≤ payload.length) (below : content.length ≤ newlen) :
    SdsLayout type (min (payload.length - 1) (sdsTypeMaxSize type)) payload content ∧
      newlen ≤ min (payload.length - 1) (sdsTypeMaxSize type) := by
  have enough : newlen ≤ min (payload.length - 1) (sdsTypeMaxSize type) := le_min (by omega) fits
  exact ⟨⟨used, stored, below.trans enough, min_le_right _ _, by omega, fun same => absurd same large⟩, enough⟩

theorem sdsEnlarge_eq {type : SdsType} (layout : SdsLayout oldtype alloc payload content)
    (used : type ≠ .unused) (grows : content.length ≤ newlen) :
    ∃ alloc' payload', sdsEnlarge allocator (sdsAt oldtype content.length alloc payload) oldtype type newlen
        content.length = .ok (sdsAt type content.length alloc' payload') ∧
      newlen + 1 ≤ payload'.length ∧ payload'.take (content.length + 1) = content ++ [0] := by
  have room := layout.room
  by_cases same : oldtype = type
  · subst same
    obtain ⟨payload', moved, enough, kept⟩ :=
      realloc_header allocator (sdsHeader oldtype content.length alloc) payload (newlen + 1)
    have shorter : payload'.take (min (newlen + 1) payload.length) =
        payload.take (min (newlen + 1) payload.length) := by rw [kept, take_eq_take_min]
    refine ⟨alloc, payload', ?_, enough, stored_of_take layout.stored (by omega) shorter⟩
    rw [sdsEnlarge, if_pos rfl, allocation_sdsAt, ok_bind, Nat.add_assoc]
    rw [length_sdsHeader] at moved
    rw [moved, sdsAt]
  · obtain ⟨len', alloc', payload', moved, enough, kept⟩ :=
      sdsMoveTo_eq allocator oldtype content.length alloc used
        (show content.length + 1 ≤ payload.length from room) (show content.length + 1 ≤ newlen + 1 by omega)
    refine ⟨alloc', payload', ?_, enough, stored_of_take layout.stored (Nat.lt_succ_self _) kept⟩
    rw [sdsEnlarge, if_neg same, Nat.add_assoc, moved, ok_bind, sdssetlen_sdsAt used]

theorem sdsMakeRoomForGeneric_eq (layout : SdsLayout type alloc payload content) (addlen : Nat)
    (greedy : Bool) (small : content.length + addlen < 2 ^ 62) :
    ∃ type' alloc' payload', sdsMakeRoomForGeneric allocator (sdsAt type content.length alloc payload) addlen greedy =
        .ok (sdsAt type' content.length alloc' payload') ∧
      SdsLayout type' alloc' payload' content ∧ content.length + addlen ≤ alloc' ∧ (addlen = 0 → type' = type) := by
  have below := layout.below
  rw [sdsMakeRoomForGeneric, layout.sdsavail_eq, ok_bind, layout.flags_eq, ok_bind, ofFlags_sdsFlags layout.used]
  by_cases room : addlen ≤ alloc - content.length
  · rw [if_pos room]
    exact ⟨type, alloc, payload, rfl, layout, by omega, fun _ => rfl⟩
  · rw [if_neg room, layout.sdslen_eq, ok_bind, Nat.mod_eq_of_lt (by omega)]
    obtain ⟨grown, addressable⟩ := sdsPreallocated_bounds greedy small
    dsimp only
    generalize sdsPreallocated greedy (content.length + addlen) = newlen at grown addressable ⊢
    have used := avoidType5_used (sdsReqType_used newlen)
    have fits : newlen ≤ sdsTypeMaxSize (avoidType5 (sdsReqType newlen)) :=
      (le_sdsTypeMaxSize_sdsReqType (by omega)).trans (sdsTypeMaxSize_le_avoidType5 _)
    have large := avoidType5_ne (sdsReqType newlen)
    generalize avoidType5 (sdsReqType newlen) = newtype at used fits large ⊢
    have header : sdsHdrSize newtype ≤ 17 := by cases newtype <;> decide
    obtain ⟨alloc', payload', enlarged, enough, stored⟩ :=
      sdsEnlarge_eq allocator layout used (show content.length ≤ newlen by omega)
    obtain ⟨layout', reached⟩ := SdsLayout.of_usable used large fits stored enough (by omega)
    refine ⟨newtype, _, payload', ?_, layout', grown.trans reached, fun none => absurd (by omega) room⟩
    rw [require_of (by omega), ok_bind, require_of (by omega), ok_bind, enlarged, ok_bind, length_sdsAt,
      Nat.add_sub_cancel_left, sdssetalloc_sdsAt used]

/-- The content that an initialisation stands for; without one it is arbitrary. -/
def SdsInit.Content : SdsInit → List UInt8 → Prop
  | bytes data, content => content = data
  | null initlen, content => content = List.replicate initlen 0
  | noinit initlen, content => content.length = initlen

theorem sdsInitHeader_holds (used : type ≠ .unused) {initlen : Nat} (fits : initlen ≤ sdsTypeMaxSize type)
    (room : initlen + 1 ≤ payload.length) :
    SdsYields ((sdsAt type initlen (min (payload.length - 1) (sdsTypeMaxSize type)) payload).write initlen [0])
      (payload.take initlen) := by
  refine ⟨_, write_overwrite room _ _ _, SdsHolds.of_terminated used ?_ (min_le_right _ _) (by omega)⟩
  exact le_min (by omega) fits

theorem sdsnewlen_yields (init : SdsInit) (small : init.initlen < 2 ^ 62) :
    ∃ content, init.Content content ∧ SdsYields (sdsnewlen allocator init) content := by
  have kind : ∃ type, type = (if sdsReqType init.initlen = .type5 ∧ init.initlen = 0 then .type8
      else sdsReqType init.initlen) ∧ type ≠ .unused ∧ init.initlen ≤ sdsTypeMaxSize type := by
    refine ⟨_, rfl, ?_⟩
    split_ifs with empty
    · rw [empty.2]
      exact ⟨by decide, Nat.zero_le _⟩
    · exact ⟨sdsReqType_used _, le_sdsTypeMaxSize_sdsReqType (by omega)⟩
  obtain ⟨type, chosen, used, fits⟩ := kind
  have header : sdsHdrSize type ≤ 17 := by cases type <;> decide
  have enough := allocator.malloc_enough (sdsHdrSize type + init.initlen + 1)
  rw [sdsnewlen]
  rw [← chosen, require_of (by omega), ok_bind]
  generalize allocator.malloc (sdsHdrSize type + init.initlen + 1) = block at enough ⊢
  cases init with
  | bytes data =>
    rw [SdsInit.initlen] at fits enough small
    have size : (block.drop (sdsHdrSize type)).length = block.length - sdsHdrSize type := length_drop
    have room : 0 + data.length ≤ (block.drop (sdsHdrSize type)).length := by omega
    have filled := take_overwrite room
    rw [Nat.zero_add] at filled
    refine ⟨data, rfl, ?_⟩
    dsimp only [ok_bind]
    rw [← size, sdsInitHeader_eq used (by omega), ok_bind, write_overwrite room, ok_bind, ← length_overwrite room]
    have held := sdsInitHeader_holds used fits
      (show data.length + 1 ≤ (overwrite (block.drop (sdsHdrSize type)) 0 data).length by
        rw [length_overwrite room]
        omega)
    rwa [filled] at held
  | null initlen =>
    rw [SdsInit.initlen] at fits enough small
    have zeros : (List.replicate (sdsHdrSize type + initlen + 1) (0 : UInt8)).length =
        sdsHdrSize type + initlen + 1 := length_replicate
    have wiped : writeBytes block 0 (List.replicate (sdsHdrSize type + initlen + 1) 0) =
        .ok (List.replicate (sdsHdrSize type) 0 ++ (List.replicate (initlen + 1) 0 ++
          block.drop (sdsHdrSize type + initlen + 1))) := by
      rw [writeBytes_of (by omega), zeros, take_zero, nil_append, Nat.zero_add,
        ← append_assoc, replicate_append_replicate, Nat.add_assoc]
    generalize block.drop (sdsHdrSize type + initlen + 1) = rest at wiped
    have dropped : (List.replicate (sdsHdrSize type) (0 : UInt8) ++ (List.replicate (initlen + 1) 0 ++ rest)).drop
        (sdsHdrSize type) = List.replicate (initlen + 1) 0 ++ rest := drop_left' length_replicate
    have content : (List.replicate (initlen + 1) (0 : UInt8) ++ rest).take initlen = List.replicate initlen 0 := by
      rw [take_append_of_le_length (by rw [length_replicate]; omega), take_replicate, Nat.min_eq_left (Nat.le_succ _)]
    have held := sdsInitHeader_holds used fits
      (show initlen + 1 ≤ (List.replicate (initlen + 1) (0 : UInt8) ++ rest).length by
        rw [length_append, length_replicate]
        omega)
    refine ⟨List.replicate initlen 0, rfl, ?_⟩
    dsimp only [SdsInit.initlen]
    rw [wiped, ok_bind, sdsInitHeader_eq used (by rw [length_append, length_replicate]; omega), ok_bind,
      length_append, length_replicate, Nat.add_sub_cancel_left, dropped]
    rwa [content] at held
  | noinit initlen =>
    rw [SdsInit.initlen] at fits enough small
    have size : (block.drop (sdsHdrSize type)).length = block.length - sdsHdrSize type := length_drop
    refine ⟨(block.drop (sdsHdrSize type)).take initlen, ?_, ?_⟩
    · rw [SdsInit.Content, length_take]
      omega
    · dsimp only [ok_bind, SdsInit.initlen]
      rw [← size, sdsInitHeader_eq used (by omega)]
      exact sdsInitHeader_holds used fits (by omega)

theorem sdsTypeMaxSize_le_of_code {type larger : SdsType} (order : type.code < larger.code) :
    sdsTypeMaxSize type ≤ sdsTypeMaxSize larger := by
  cases type <;> cases larger <;> first | decide | exact absurd order (by decide)

theorem sdsReallocInPlace_eq (type : SdsType) (len alloc size : Nat) (payload : Memory) :
    ∃ payload', sdsReallocInPlace allocator (sdsAt type len alloc payload) (sdsHdrSize type)
        (sdsHdrSize type + size + 1) = .ok (sdsAt type len alloc payload') ∧
      size + 1 ≤ payload'.length ∧ payload'.take (min (size + 1) payload.length) = payload.take (size + 1) := by
  rw [sdsReallocInPlace, allocation_sdsAt, ok_bind]
  split_ifs with optimal
  · obtain ⟨nallocx, member, same⟩ := Option.map_eq_some_iff.mp optimal
    have enough := allocator.nallocx_enough nallocx member (sdsHdrSize type + size + 1)
    rw [same, length_append, length_sdsHeader] at enough
    exact ⟨payload, rfl, by omega, by rw [← take_eq_take_min]⟩
  · obtain ⟨payload', moved, enough, kept⟩ :=
      realloc_header allocator (sdsHeader type len alloc) payload (size + 1)
    rw [length_sdsHeader, ← Nat.add_assoc] at moved
    exact ⟨payload', by rw [moved, sdsAt], enough, kept⟩

theorem sdsReshape_eq {type : SdsType} (oldlen alloc : Nat) {len : Nat} (oldUsed : oldtype ≠ .unused)
    (used : type ≠ .unused) (fits : size ≤ sdsTypeMaxSize type) (within : len ≤ payload.length) (enough : len ≤ size) :
    ∃ type' len' alloc' payload', sdsReshape allocator (sdsAt oldtype oldlen alloc payload) oldtype type size len =
        .ok (sdsAt type' len' alloc' payload') ∧ type' ≠ .unused ∧ size ≤ sdsTypeMaxSize type' ∧
      size + 1 ≤ payload'.length ∧ payload'.take len = payload.take len := by
  rw [sdsReshape]
  split_ifs with inPlace
  · obtain ⟨payload', moved, room, kept⟩ :=
      sdsReallocInPlace_eq allocator oldtype oldlen alloc size payload
    have shorter := congrArg (List.take len) kept
    rw [take_take, take_take, Nat.min_eq_left (by omega), Nat.min_eq_left (by omega)] at shorter
    refine ⟨oldtype, oldlen, alloc, payload', moved, oldUsed, ?_, room, shorter⟩
    rcases inPlace with same | ⟨order, _⟩
    · rwa [same]
    · exact fits.trans (sdsTypeMaxSize_le_of_code order)
  · obtain ⟨len', alloc', payload', moved, room, kept⟩ :=
      sdsMoveTo_eq allocator oldtype oldlen alloc used within (show len ≤ size + 1 by omega)
    exact ⟨type, len', alloc', payload', moved, used, fits, room, kept⟩

theorem sdsResize_yields (holds : SdsHolds s content) (size : Nat) (wouldRegrow : Bool)
    (small : size < 2 ^ 62) : SdsYields (sdsResize allocator s size wouldRegrow) (content.take size) := by
  obtain ⟨oldtype, alloc, payload, rfl, layout⟩ := holds
  have below := layout.below
  have room := layout.room
  rw [sdsResize, layout.flags_eq, ok_bind, layout.sdslen_eq, ok_bind, layout.sdsalloc_eq, ok_bind,
    ofFlags_sdsFlags layout.used]
  dsimp only
  by_cases good : alloc = size
  · rw [if_pos good, take_of_length_le (by omega)]
    exact ⟨_, rfl, oldtype, alloc, payload, rfl, layout⟩
  · rw [if_neg good]
    have shorter : (if size < content.length then size else content.length) = min size content.length := by
      split_ifs <;> omega
    rw [shorter]
    have kind : ∃ type, type = (if wouldRegrow = true then avoidType5 (sdsReqType size) else sdsReqType size) ∧
        type ≠ .unused ∧ size ≤ sdsTypeMaxSize type := by
      have fits := le_sdsTypeMaxSize_sdsReqType (show size < 2 ^ 64 by omega)
      refine ⟨_, rfl, ?_⟩
      split_ifs
      · exact ⟨avoidType5_used (sdsReqType_used _), fits.trans (sdsTypeMaxSize_le_avoidType5 _)⟩
      · exact ⟨sdsReqType_used _, fits⟩
    obtain ⟨type, chosen, used, fits⟩ := kind
    rw [← chosen]
    obtain ⟨type', len', alloc', payload', reshaped, used', fits', enough, kept⟩ :=
      sdsReshape_eq allocator content.length alloc layout.used used fits
        (show min size content.length ≤ payload.length by omega) (min_le_left _ _)
    have bytes : payload'.take (min size content.length) = content.take size := by
      have cut := congrArg (List.take (min size content.length)) layout.take_content
      rw [take_take, Nat.min_eq_left (min_le_right _ _)] at cut
      rw [kept, cut, ← take_eq_take_min]
    have inside : min size content.length + [(0 : UInt8)].length ≤ payload'.length :=
      (Nat.succ_le_succ (min_le_left _ _)).trans enough
    refine ⟨_, ?_, bytes ▸ SdsHolds.of_terminated used' (min_le_left size content.length) fits' enough⟩
    rw [reshaped, ok_bind, write_overwrite inside, ok_bind, sdssetlen_sdsAt used', ok_bind, sdssetalloc_sdsAt used']

theorem sdsRemoveFreeSpace_yields (holds : SdsHolds s content) (wouldRegrow : Bool)
    (small : content.length < 2 ^ 62) : SdsYields (sdsRemoveFreeSpace allocator s wouldRegrow) content := by
  have resized := sdsResize_yields allocator holds content.length wouldRegrow small
  obtain ⟨type, alloc, payload, rfl, layout⟩ := holds
  rw [take_length] at resized
  rwa [sdsRemoveFreeSpace, layout.sdslen_eq]

theorem sdsdup_yields (holds : SdsHolds s content) (small : content.length < 2 ^ 62) :
    SdsYields (sdsdup allocator s) content := by
  obtain ⟨type, alloc, payload, rfl, layout⟩ := holds
  rw [sdsdup, layout.sdslen_eq, ok_bind, layout.read_prefix (Nat.le_refl _), take_length]
  obtain ⟨_, rfl, yields⟩ := sdsnewlen_yields allocator (.bytes content) small
  exact yields

end Redis

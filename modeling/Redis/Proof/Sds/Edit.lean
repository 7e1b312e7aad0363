import Redis.Proof.Sds.Growth

namespace Redis
open Foundation List
variable {alloc : Nat} {content : List UInt8} {payload : Memory} {type : SdsType}

section Append
variable (allocator : Allocator) {s : Sds} {content : List UInt8} (holds : SdsHolds s content)
include holds
theorem sdsMakeRoomForGeneric_yields (addlen : Nat) (greedy : Bool) (small : content.length + addlen < 2 ^ 62) :
    SdsYields (sdsMakeRoomForGeneric allocator s addlen greedy) content := by
  obtain ⟨type, alloc, payload, rfl, layout⟩ := holds
  obtain ⟨type', alloc', payload', made, layout', -, -⟩ :=
    sdsMakeRoomForGeneric_eq allocator layout addlen greedy small
  exact ⟨_, made, type', alloc', payload', rfl, layout'⟩

theorem sdscatlen_yields (t : List UInt8) (small : content.length + t.length < 2 ^ 62) :
    SdsYields (sdscatlen allocator s t) (content ++ t) := by
  obtain ⟨type, alloc, payload, rfl, layout⟩ := holds
  obtain ⟨type', alloc', payload', made, layout', enough, -⟩ :=
    sdsMakeRoomForGeneric_eq allocator layout t.length true small
  have inside := layout'.inside
  have room : content.length + t.length ≤ payload'.length := by omega
  have appended := take_overwrite room
  rw [layout'.take_content] at appended
  rw [sdscatlen, layout.sdslen_eq, ok_bind, sdsMakeRoomFor, made, ok_bind, write_overwrite room, ← appended]
  exact setlen_write_yields layout'.used enough layout'.fits (by rwa [length_overwrite room]) _

theorem sdsgrowzero_yields (len : Nat) (small : len < 2 ^ 62) :
    SdsYields (sdsgrowzero allocator s len) (content ++ List.replicate (len - content.length) 0) := by
  obtain ⟨type, alloc, payload, rfl, layout⟩ := holds
  by_cases short : len ≤ content.length
  · rw [sdsgrowzero, layout.sdslen_eq, ok_bind, if_pos short, Nat.sub_eq_zero_of_le short, replicate_zero, append_nil]
    exact ⟨_, rfl, type, alloc, payload, rfl, layout⟩
  · have total : content.length + (len - content.length) = len := by omega
    obtain ⟨type', alloc', payload', made, layout', enough, -⟩ :=
      sdsMakeRoomForGeneric_eq allocator layout (len - content.length) true (by omega)
    have inside := layout'.inside
    have size : (List.replicate (len - content.length) (0 : UInt8)).length = len - content.length := length_replicate
    have room : content.length + (List.replicate (len - content.length) (0 : UInt8)).length ≤ payload'.length := by
      omega
    have appended := take_overwrite room
    have zeros := overwrite_append room [0]
    rw [size, total] at zeros appended
    rw [layout'.take_content] at appended
    have wider : content.length + (List.replicate (len - content.length + 1) (0 : UInt8)).length ≤ payload'.length := by
      rw [length_replicate]
      omega
    rw [sdsgrowzero, layout.sdslen_eq, ok_bind, if_neg short, sdsMakeRoomFor, made, ok_bind, write_overwrite wider,
      ok_bind, sdssetlen_sdsAt layout'.used, replicate_succ', ← zeros, ← appended]
    exact ⟨_, rfl, SdsHolds.of_terminated layout'.used (by omega) layout'.fits (by rwa [length_overwrite room])⟩

theorem sdsReserve_eq (len : Nat) (small : len < 2 ^ 62) :
    ∃ type' alloc' payload' len', sdsReserve allocator s len = .ok (sdsAt type' len' alloc' payload') ∧
      type' ≠ .unused ∧ len ≤ alloc' ∧ alloc' ≤ sdsTypeMaxSize type' ∧ alloc' < payload'.length := by
  obtain ⟨type, alloc, payload, rfl, layout⟩ := holds
  have below := layout.below
  rw [sdsReserve, layout.sdsalloc_eq, ok_bind]
  split_ifs with short
  · obtain ⟨type', alloc', payload', made, layout', enough, -⟩ :=
      sdsMakeRoomForGeneric_eq allocator layout (len - content.length) true (by omega)
    refine ⟨type', alloc', payload', content.length, ?_, layout'.used, by omega, layout'.fits, layout'.inside⟩
    rw [layout.sdslen_eq, ok_bind, sdsMakeRoomFor, made]
  · exact ⟨type, alloc, payload, _, rfl, layout.used, by omega, layout.fits, layout.inside⟩

theorem sdscpylen_yields (t : List UInt8) (small : t.length < 2 ^ 62) : SdsYields (sdscpylen allocator s t) t := by
  obtain ⟨type, alloc, payload, len, made, used, enough, fits, inside⟩ := sdsReserve_eq allocator holds t.length small
  have room : 0 + t.length ≤ payload.length := by omega
  have copied := take_overwrite room
  rw [Nat.zero_add] at copied
  have held := write_setlen_yields used enough fits
    (show alloc < (overwrite payload 0 t).length by rwa [length_overwrite room]) len
  rw [sdscpylen, made, ok_bind, write_overwrite room]
  rwa [copied] at held
end Append

theorem sdsIncrCast_eq {value : Int} (used : type ≠ .unused) (positive : 0 ≤ value)
    (fits : value ≤ sdsTypeMaxSize type) : sdsIncrCast type value = value := by
  unfold sdsIncrCast
  cases type <;> simp only [sdsTypeMaxSize] at fits <;> first | contradiction | skip
  all_goals
    exact Int.emod_eq_of_lt positive (by omega)

theorem sdsIncrLen_yields {len alloc newlen : Nat} {incr : Int} (used : type ≠ .unused) (below : len ≤ alloc)
    (fits : alloc ≤ sdsTypeMaxSize type) (inside : alloc < payload.length) (known : type = .type5 → alloc = len)
    (moved : (len : Int) + incr = newlen) (within : newlen ≤ alloc) (regular : ¬(type = .type5 ∧ incr = 0)) :
    SdsYields (sdsIncrLen (sdsAt type len alloc payload) incr) (payload.take newlen) := by
  have room : newlen + [(0 : UInt8)].length ≤ payload.length := within.trans_lt inside
  refine ⟨_, ?_, SdsHolds.of_terminated used within fits inside⟩
  rw [sdsIncrLen, flags_sdsAt used, ok_bind, ofFlags_sdsFlags used]
  split
  · have same := known rfl
    have bound : alloc < 32 := Nat.lt_succ_of_le fits
    have nonzero : incr ≠ 0 := fun zero => regular ⟨rfl, zero⟩
    have written : (sdsAt .type5 len alloc payload).writeBefore 1 [UInt8.ofNat (newlen * 8)] =
        .ok (sdsAt .type5 newlen alloc payload) := writeBefore_type5 _ newlen alloc payload
    dsimp only
    rw [toNat_sdsFlags_type5 (same ▸ fits), sdsIncrCast_eq used (by omega) (by simp only [sdsTypeMaxSize]; omega),
      require_of (by omega), ok_bind, moved, Int.toNat_natCast, written, ok_bind, write_overwrite room]
  · exact absurd rfl used
  next large _ =>
    have wide := SdsType.wide_of_ne used large
    have limit := sdsTypeMaxSize_wide wide
    have wrapped : ((len : Int) + incr) % 256 ^ type.width = newlen := by
      rw [moved]
      exact Int.emod_eq_of_lt (Int.natCast_nonneg _) (by exact_mod_cast (show newlen < 256 ^ type.width by omega))
    have allowed : (0 ≤ incr ∧ (if type = .type8 ∨ type = .type16 then incr else sdsIncrCast type incr) ≤
        (alloc : Int) - len) ∨ (incr < 0 ∧ sdsIncrCast type (-incr) ≤ len) := by
      by_cases positive : 0 ≤ incr
      · rw [sdsIncrCast_eq used positive (by omega)]
        exact .inl ⟨positive, by omega⟩
      · rw [sdsIncrCast_eq used (show 0 ≤ -incr by omega) (by omega)]
        exact .inr ⟨by omega, by omega⟩
    dsimp only
    rw [readBefore_len wide, ok_bind, readBefore_alloc wide, ok_bind, leValue_field wide (below.trans fits),
      leValue_field wide fits, require_of allowed, ok_bind, wrapped, Int.toNat_natCast, sdsAt_wide wide, writeBefore_len,
      ok_bind, ← sdsAt_wide wide, write_overwrite room]

theorem fill_yields (allocator : Allocator) (layout : SdsLayout type alloc payload content) (greedy : Bool)
    {addlen : Nat} {data : List UInt8} (written : data.length ≤ addlen) (small : content.length + addlen < 2 ^ 62)
    (regular : ¬(type = .type5 ∧ addlen = 0)) :
    SdsYields ((SdsEdit.fill greedy addlen data).apply allocator (sdsAt type content.length alloc payload))
      (content ++ data) := by
  obtain ⟨type', alloc', payload', made, layout', enough, kept⟩ :=
    sdsMakeRoomForGeneric_eq allocator layout addlen greedy small
  have inside := layout'.inside
  have room : content.length + data.length ≤ payload'.length := by omega
  have appended := take_overwrite room
  rw [layout'.take_content] at appended
  rw [SdsEdit.apply, made, ok_bind, layout'.sdslen_eq, ok_bind, write_overwrite room, ← appended]
  apply sdsIncrLen_yields layout'.used layout'.below layout'.fits (by rwa [length_overwrite room]) layout'.known
  · exact (Int.natCast_add _ _).symm
  · omega
  · intro empty
    have full := layout'.known empty.1
    have none : addlen = 0 := by omega
    exact regular ⟨(kept none).symm.trans empty.1, none⟩

theorem decrLen_yields (layout : SdsLayout type alloc payload content) {count : Nat} (within : count ≤ content.length)
    (regular : ¬(type = .type5 ∧ count = 0)) :
    SdsYields (sdsIncrLen (sdsAt type content.length alloc payload) (-count))
      (content.take (content.length - count)) := by
  have below := layout.below
  have shorter := congrArg (List.take (content.length - count)) layout.take_content
  rw [take_take] at shorter
  rw [← shorter]
  apply sdsIncrLen_yields layout.used layout.below layout.fits layout.inside layout.known
  · omega
  · omega
  · intro zero
    exact regular ⟨zero.1, by omega⟩

theorem SdsLayout.slice (layout : SdsLayout type alloc payload content) {start len : Nat}
    (within : start + len ≤ content.length) : (payload.drop start).take len = (content.drop start).take len := by
  have cut := congrArg (fun bytes => (bytes.drop start).take len) layout.take_content
  rwa [drop_take, take_take, Nat.min_eq_left (by omega)] at cut

theorem sdsMoveToFront_eq (type : SdsType) (oldlen alloc : Nat) {start len : Nat} {needed : Bool}
    (within : start + len ≤ payload.length)
    (skipped : needed = false → payload.take len = (payload.drop start).take len) :
    ∃ payload', sdsMoveToFront (sdsAt type oldlen alloc payload) start len needed =
        .ok (sdsAt type oldlen alloc payload') ∧
      payload'.length = payload.length ∧ payload'.take len = (payload.drop start).take len := by
  cases needed with
  | false => exact ⟨payload, rfl, rfl, skipped rfl⟩
  | true =>
    have size : ((payload.drop start).take len).length = len := by
      rw [length_take, length_drop]
      omega
    have room : 0 + ((payload.drop start).take len).length ≤ payload.length := by omega
    have moved := take_overwrite room
    rw [size, Nat.zero_add] at moved
    refine ⟨_, ?_, length_overwrite room, moved⟩
    rw [sdsMoveToFront, if_pos rfl, read_sdsAt, readBytes_of within, ok_bind, write_overwrite room]

/-- The common end of `sdstrim` and `sdssubstr`. -/
theorem keepSlice_yields (layout : SdsLayout type alloc payload content) {start len : Nat} {needed : Bool}
    (within : start + len ≤ content.length) (skipped : needed = false → start = 0 ∨ len = 0) :
    SdsYields (do
      let s ← sdsMoveToFront (sdsAt type content.length alloc payload) start len needed
      let s ← s.write len [0]
      sdssetlen s len) ((content.drop start).take len) := by
  have below := layout.below
  have inside := layout.inside
  have same : needed = false → payload.take len = (payload.drop start).take len := by
    intro idle
    rcases skipped idle with rfl | rfl <;> rfl
  obtain ⟨payload', moved, size, kept⟩ := sdsMoveToFront_eq type content.length alloc
    (show start + len ≤ payload.length by omega) same
  rw [moved, ← layout.slice within, ← kept]
  exact write_setlen_yields layout.used (by omega) layout.fits (by omega) content.length

theorem sdssubstr_yields {s : Sds} (holds : SdsHolds s content) (start len : Nat) :
    SdsYields (sdssubstr s start len) ((content.drop start).take len) := by
  obtain ⟨type, alloc, payload, rfl, layout⟩ := holds
  rw [sdssubstr, layout.sdslen_eq, ok_bind]
  dsimp only
  by_cases beyond : content.length ≤ start
  · have held := keepSlice_yields layout (Nat.zero_le content.length) (show false = false → 0 = 0 ∨ 0 = 0 from
      fun _ => .inl rfl)
    rw [drop_of_length_le beyond, take_nil]
    simpa only [if_pos beyond, Nat.not_lt_zero, if_false, ne_eq, not_true_eq_false, decide_false,
      take_zero] using held
  · have clamped : (if content.length - start < len then content.length - start else len) =
        min len (content.length - start) := by
      split_ifs <;> omega
    have cut : (content.drop start).take len = (content.drop start).take (min len (content.length - start)) := by
      rw [take_eq_take_min, length_drop]
    rw [if_neg beyond, if_neg beyond, clamped, cut]
    apply keepSlice_yields layout
    · omega
    · intro idle
      exact .inr (not_not.mp (of_decide_eq_false idle))

def bytesBetween (content : List UInt8) (start stop : Int) : List UInt8 :=
  (content.take (sdsIndex content.length stop + 1).toNat).drop (sdsIndex content.length start).toNat

theorem sdsrange_yields {s : Sds} (holds : SdsHolds s content) {start stop : Int} (small : content.length < 2 ^ 62)
    (startLow : -2 ^ 63 ≤ start) (startHigh : start < 2 ^ 63) (stopHigh : stop < 2 ^ 63)
    (regular : content = [] ∨ 0 ≤ sdsIndex content.length start ∨ sdsIndex content.length stop < 0) :
    SdsYields (sdsrange s start stop) (bytesBetween content start stop) := by
  have kept := holds
  obtain ⟨type, alloc, payload, rfl, layout⟩ := holds
  rw [sdsrange, layout.sdslen_eq, ok_bind]
  by_cases empty : content.length = 0
  · have none := eq_nil_of_length_eq_zero empty
    rw [if_pos empty]
    refine ⟨_, rfl, ?_⟩
    rwa [none, bytesBetween, take_nil, drop_nil, ← none]
  · rw [if_neg empty]
    have upper : sdsIndex content.length start < 2 ^ 63 := by unfold sdsIndex; split_ifs <;> omega
    have lower : -2 ^ 63 ≤ sdsIndex content.length start := by unfold sdsIndex; split_ifs <;> omega
    have last : sdsIndex content.length stop < 2 ^ 63 := by unfold sdsIndex; split_ifs <;> omega
    rw [bytesBetween]
    generalize sdsIndex content.length start = first at *
    generalize sdsIndex content.length stop = final at *
    have taken : (content.take (final + 1).toNat).drop first.toNat = (content.drop (first % 2 ^ 64).toNat).take
        (if final < first then 0 else ((final - first + 1) % 2 ^ 64).toNat) := by
      by_cases inside : 0 ≤ first
      · rw [drop_take, Int.emod_eq_of_lt inside (by omega)]
        congr 1
        split_ifs with reversed
        · omega
        · rw [Int.emod_eq_of_lt (by omega) (by omega)]
          omega
      · have start : (first % 2 ^ 64).toNat = (2 ^ 64 + first).toNat := by omega
        have before : final < 0 := by
          rcases regular with none | nonnegative | negative
          · exact absurd (congrArg List.length none) empty
          · exact absurd nonnegative inside
          · exact negative
        have nothing : (final + 1).toNat = 0 := by omega
        rw [nothing, take_zero, drop_nil, drop_of_length_le (by omega), take_nil]
    rw [taken]
    exact sdssubstr_yields kept _ _

end Redis

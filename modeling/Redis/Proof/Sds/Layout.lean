import Redis.Construction.Sds

namespace Redis
open Foundation List

theorem readBytes_right (left right : Memory) (index count : Nat) :
    readBytes (left ++ right) (left.length + index) count = readBytes right index count := by
  have bound : left.length + index + count ≤ (left ++ right).length ↔ index + count ≤ right.length := by
    rw [length_append]
    omega
  have dropped : (left ++ right).drop (left.length + index) = right.drop index := by
    rw [← drop_drop, drop_left]
  simp only [readBytes, bound, dropped]

theorem writeBytes_right (left right data : Memory) (index : Nat) :
    writeBytes (left ++ right) (left.length + index) data =
      (writeBytes right index data).map fun written => left ++ written := by
  have bound : left.length + index + data.length ≤ (left ++ right).length ↔ index + data.length ≤ right.length := by
    rw [length_append]
    omega
  have before : (left ++ right).take (left.length + index) = left ++ right.take index := by
    simp [take_append]
  have after : (left ++ right).drop (left.length + index + data.length) = right.drop (index + data.length) := by
    rw [Nat.add_assoc, ← drop_drop, drop_left]
  simp only [writeBytes, bound, before, after]
  split_ifs with fits
  · simp [Except.map]
  · rfl

theorem readBefore_append (left middle right : Memory) {offset distance count : Nat} (inside : distance ≤ offset)
    (start : offset - distance = left.length) (size : count = middle.length) :
    (⟨left ++ (middle ++ right), offset⟩ : Sds).readBefore distance count = .ok middle := by
  rw [Sds.readBefore, if_pos inside, ← append_assoc]
  exact readBytes_append left middle right start size

theorem writeBefore_append (left middle right data : Memory) {offset distance : Nat} (inside : distance ≤ offset)
    (start : offset - distance = left.length) (size : data.length = middle.length) :
    (⟨left ++ (middle ++ right), offset⟩ : Sds).writeBefore distance data =
      .ok ⟨left ++ (data ++ right), offset⟩ := by
  rw [Sds.writeBefore, if_pos inside]
  rw [← append_assoc, writeBytes_append left middle right data start size, append_assoc]
  rfl

/-- The packed header of a string. -/
def sdsHeader : SdsType → Nat → Nat → List UInt8
  | .type5, len, _ => [UInt8.ofNat (len * 8)]
  | .unused, _, _ => []
  | type, len, alloc => leBytes type.width len ++ leBytes type.width alloc ++ [UInt8.ofNat type.code]

variable (type : SdsType)

@[simp] theorem length_sdsHeader (len alloc : Nat) : (sdsHeader type len alloc).length = sdsHdrSize type := by
  cases type <;> simp [sdsHeader, sdsHdrSize, SdsType.width]

/-- A string laid out with a header of a given type. -/
def sdsAt (len alloc : Nat) (payload : Memory) : Sds := ⟨sdsHeader type len alloc ++ payload, sdsHdrSize type⟩

def sdsFlags (len : Nat) : UInt8 := if type = .type5 then UInt8.ofNat (len * 8) else UInt8.ofNat type.code

theorem ofFlags_sdsFlags {type : SdsType} (used : type ≠ .unused) (len : Nat) :
    SdsType.ofFlags (sdsFlags type len) = type := by
  cases type with
  | type5 =>
    simp [SdsType.ofFlags, sdsFlags]
  | unused => exact absurd rfl used
  | _ => rfl

theorem toNat_sdsFlags_type5 {len : Nat} (fits : len ≤ sdsTypeMaxSize .type5) :
    (sdsFlags .type5 len).toNat / 8 = len := by
  rw [sdsTypeMaxSize] at fits
  rw [sdsFlags, if_pos rfl, UInt8.toNat_ofNat']
  omega

/-- A string with the fields of a header and any flags byte. -/
def sdsFields (len alloc : Nat) (flag : UInt8) (payload : Memory) : Sds :=
  ⟨leBytes type.width len ++ (leBytes type.width alloc ++ ([flag] ++ payload)), sdsHdrSize type⟩

/-- The headers with separate length and allocation fields. -/
def SdsType.Wide : Prop := 0 < type.width

theorem SdsType.wide_of_ne {type : SdsType} (used : type ≠ .unused) (large : type ≠ .type5) : type.Wide := by
  cases type <;> simp_all [SdsType.Wide, SdsType.width]

section Wide
variable {type : SdsType} (wide : type.Wide) (len alloc : Nat) (flag : UInt8) (payload : Memory)
include wide
theorem sdsHdrSize_wide : sdsHdrSize type = 2 * type.width + 1 := by
  cases type <;> simp_all [SdsType.Wide, SdsType.width, sdsHdrSize]

theorem sdsHeader_wide :
    sdsHeader type len alloc = leBytes type.width len ++ leBytes type.width alloc ++ [UInt8.ofNat type.code] := by
  cases type <;> simp_all [SdsType.Wide, SdsType.width, sdsHeader]

theorem sdsTypeMaxSize_wide : sdsTypeMaxSize type + 1 = 256 ^ type.width := by
  cases type <;> simp_all [SdsType.Wide, SdsType.width, sdsTypeMaxSize]

theorem leValue_field {value : Nat} (fits : value ≤ sdsTypeMaxSize type) :
    leValue (leBytes type.width value) = value :=
  leValue_leBytes_of_lt (sdsTypeMaxSize_wide wide ▸ Nat.lt_succ_of_le fits)

theorem sdsAt_wide : sdsAt type len alloc payload = sdsFields type len alloc (UInt8.ofNat type.code) payload := by
  rw [sdsAt, sdsHeader_wide wide, append_assoc, append_assoc]
  rfl

theorem readBefore_len :
    (sdsAt type len alloc payload).readBefore (sdsHdrSize type) type.width = .ok (leBytes type.width len) := by
  rw [sdsAt_wide wide]
  exact readBefore_append [] _ _ (Nat.le_refl _) (Nat.sub_self _) (length_leBytes _ _).symm

theorem readBefore_alloc :
    (sdsAt type len alloc payload).readBefore (type.width + 1) type.width = .ok (leBytes type.width alloc) := by
  have size := sdsHdrSize_wide wide
  rw [sdsAt_wide wide]
  exact readBefore_append _ _ _ (by omega) (by rw [length_leBytes]; omega) (length_leBytes _ _).symm

omit wide in
theorem writeBefore_len (newlen : Nat) :
    (sdsFields type len alloc flag payload).writeBefore (sdsHdrSize type) (leBytes type.width newlen) =
      .ok (sdsFields type newlen alloc flag payload) :=
  writeBefore_append [] _ _ _ (Nat.le_refl _) (Nat.sub_self _) (by rw [length_leBytes, length_leBytes])

theorem writeBefore_alloc (newalloc : Nat) :
    (sdsFields type len alloc flag payload).writeBefore (type.width + 1) (leBytes type.width newalloc) =
      .ok (sdsFields type len newalloc flag payload) := by
  have size := sdsHdrSize_wide wide
  exact writeBefore_append _ _ _ _ (by omega) (by rw [length_leBytes]; omega)
    (by rw [length_leBytes, length_leBytes])

theorem writeBefore_flag (newflag : UInt8) : (sdsFields type len alloc flag payload).writeBefore 1 [newflag] =
      .ok (sdsFields type len alloc newflag payload) := by
  have size := sdsHdrSize_wide wide
  have written := writeBefore_append (leBytes type.width len ++ leBytes type.width alloc) [flag] payload [newflag]
    (show 1 ≤ sdsHdrSize type by omega) (by rw [length_append, length_leBytes, length_leBytes]; omega) rfl
  rwa [append_assoc, append_assoc] at written

/-- A new allocation splits at the fields of a wide header. -/
theorem exists_fields {block : Memory} (room : sdsHdrSize type ≤ block.length) :
    ∃ len alloc flag, ⟨block, sdsHdrSize type⟩ = sdsFields type len alloc flag (block.drop (sdsHdrSize type)) := by
  have size := sdsHdrSize_wide wide
  have last : 2 * type.width < block.length := by omega
  have first : (block.take type.width).length = type.width := by
    rw [length_take]
    omega
  have second : ((block.drop type.width).take type.width).length = type.width := by
    rw [length_take, length_drop]
    omega
  have tail : [block[2 * type.width]] ++ block.drop (sdsHdrSize type) = (block.drop type.width).drop type.width := by
    rw [drop_drop, ← Nat.two_mul, drop_eq_getElem_cons last, size]
    rfl
  refine ⟨leValue (block.take type.width), leValue ((block.drop type.width).take type.width), block[2 * type.width], ?_⟩
  have lenBytes := leBytes_leValue (block.take type.width)
  have allocBytes := leBytes_leValue ((block.drop type.width).take type.width)
  rw [first] at lenBytes
  rw [second] at allocBytes
  rw [sdsFields, lenBytes, allocBytes, tail, take_append_drop, take_append_drop]
end Wide

theorem flags_sdsAt {type : SdsType} (used : type ≠ .unused) (len alloc : Nat) (payload : Memory) :
    (sdsAt type len alloc payload).flags = .ok (sdsFlags type len) := by
  cases type with
  | unused => exact absurd rfl used
  | _ => rfl

theorem writeBefore_type5 (flag : UInt8) (newlen alloc : Nat) (payload : Memory) :
    (⟨flag :: payload, sdsHdrSize .type5⟩ : Sds).writeBefore 1 [UInt8.ofNat (newlen * 8)] =
      .ok (sdsAt .type5 newlen alloc payload) :=
  writeBefore_append [] [flag] payload _ (Nat.le_refl 1) rfl rfl

section Fields
variable {type : SdsType} (used : type ≠ .unused) (len alloc : Nat) (payload : Memory)
include used
theorem sdslen_sdsAt (fits : len ≤ sdsTypeMaxSize type) : sdslen (sdsAt type len alloc payload) = .ok len := by
  rw [sdslen, flags_sdsAt used, ok_bind, ofFlags_sdsFlags used]
  split
  · rw [toNat_sdsFlags_type5 fits]
    rfl
  · exact absurd rfl used
  next large _ =>
    have wide := SdsType.wide_of_ne used large
    rw [readBefore_len wide, ok_bind, leValue_field wide fits]
    rfl

theorem sdsalloc_sdsAt (fits : alloc ≤ sdsTypeMaxSize type) (known : type = .type5 → alloc = len) :
    sdsalloc (sdsAt type len alloc payload) = .ok alloc := by
  rw [sdsalloc, flags_sdsAt used, ok_bind, ofFlags_sdsFlags used]
  split
  · rw [← known rfl, toNat_sdsFlags_type5 fits]
    rfl
  · exact absurd rfl used
  next large _ =>
    have wide := SdsType.wide_of_ne used large
    rw [readBefore_alloc wide, ok_bind, leValue_field wide fits]
    rfl

theorem sdsavail_sdsAt (below : len ≤ alloc) (fits : alloc ≤ sdsTypeMaxSize type)
    (known : type = .type5 → alloc = len) : sdsavail (sdsAt type len alloc payload) = .ok (alloc - len) := by
  rw [sdsavail, flags_sdsAt used, ok_bind, ofFlags_sdsFlags used]
  split
  · rw [known rfl, Nat.sub_self]
    rfl
  · exact absurd rfl used
  next large _ =>
    have wide := SdsType.wide_of_ne used large
    rw [readBefore_alloc wide, ok_bind, readBefore_len wide, ok_bind, leValue_field wide fits,
      leValue_field wide (below.trans fits)]
    rfl

theorem sdssetlen_sdsAt (newlen : Nat) :
    sdssetlen (sdsAt type len alloc payload) newlen = .ok (sdsAt type newlen alloc payload) := by
  rw [sdssetlen, flags_sdsAt used, ok_bind, ofFlags_sdsFlags used]
  split
  · exact writeBefore_type5 _ newlen alloc payload
  · exact absurd rfl used
  next large _ =>
    have wide := SdsType.wide_of_ne used large
    rw [sdsAt_wide wide, sdsAt_wide wide, writeBefore_len]

theorem sdssetalloc_sdsAt (newalloc : Nat) :
    sdssetalloc (sdsAt type len alloc payload) newalloc = .ok (sdsAt type len newalloc payload) := by
  rw [sdssetalloc, flags_sdsAt used, ok_bind, ofFlags_sdsFlags used]
  split
  · rfl
  · exact absurd rfl used
  next large _ =>
    have wide := SdsType.wide_of_ne used large
    rw [sdsAt_wide wide, sdsAt_wide wide, writeBefore_alloc wide]

omit used in
theorem write_sdsAt (index : Nat) (data : List UInt8) : (sdsAt type len alloc payload).write index data =
      (writeBytes payload index data).map (sdsAt type len alloc) := by
  have written := writeBytes_right (sdsHeader type len alloc) payload data index
  rw [length_sdsHeader] at written
  rw [Sds.write, sdsAt, written]
  cases writeBytes payload index data with
  | ok value => rfl
  | error error => rfl
end Fields

theorem read_sdsAt (len alloc : Nat) (payload : Memory) (index count : Nat) :
    (sdsAt type len alloc payload).read index count = readBytes payload index count := by
  have read := readBytes_right (sdsHeader type len alloc) payload index count
  rwa [length_sdsHeader] at read

theorem allocation_sdsAt (len alloc : Nat) (payload : Memory) :
    (sdsAt type len alloc payload).allocation (sdsHdrSize type) = .ok (sdsHeader type len alloc ++ payload) :=
  if_pos rfl

theorem sdsInitHeader_eq {type : SdsType} (used : type ≠ .unused) {block : Memory}
    (room : sdsHdrSize type ≤ block.length) (initlen usable : Nat) :
    sdsInitHeader ⟨block, sdsHdrSize type⟩ type initlen usable =
      .ok (sdsAt type initlen usable (block.drop (sdsHdrSize type))) := by
  by_cases small : type = .type5
  · subst small
    obtain ⟨flag, rest, rfl⟩ := exists_cons_of_length_pos (show 0 < block.length from room)
    exact writeBefore_type5 flag initlen usable rest
  · have wide := SdsType.wide_of_ne used small
    obtain ⟨len, alloc, flag, split⟩ := exists_fields wide room
    rw [split, sdsInitHeader.eq_3 _ _ _ _ small used, writeBefore_len, ok_bind, writeBefore_alloc wide, ok_bind,
      writeBefore_flag wide, sdsAt_wide wide]

/-- Only the type byte of a moved string is set; the other fields are left over from the allocation. -/
theorem writeBefore_code {type : SdsType} (used : type ≠ .unused) {block : Memory}
    (room : sdsHdrSize type ≤ block.length) :
    ∃ len alloc, (⟨block, sdsHdrSize type⟩ : Sds).writeBefore 1 [UInt8.ofNat type.code] =
      .ok (sdsAt type len alloc (block.drop (sdsHdrSize type))) := by
  by_cases small : type = .type5
  · subst small
    obtain ⟨flag, rest, rfl⟩ := exists_cons_of_length_pos (show 0 < block.length from room)
    exact ⟨0, 0, writeBefore_type5 flag 0 0 rest⟩
  · have wide := SdsType.wide_of_ne used small
    obtain ⟨len, alloc, flag, split⟩ := exists_fields wide room
    exact ⟨len, alloc, by rw [split, writeBefore_flag wide, sdsAt_wide wide]⟩

theorem length_sdsAt (len alloc : Nat) (payload : Memory) :
    (sdsAt type len alloc payload).memory.length = sdsHdrSize type + payload.length := by
  rw [sdsAt, length_append, length_sdsHeader]

end Redis

/- This file shows that each function of `sds.c` keeps the layout of its string and computes the expected content. -/
import Redis.Proof.Sds.Layout

namespace Redis
open Foundation List

theorem writeBytes_of {memory : Memory} {offset : Nat} {data : List UInt8}
    (fits : offset + data.length ≤ memory.length) :
    writeBytes memory offset data =
      .ok (memory.take offset ++ data ++ memory.drop (offset + data.length)) := if_pos fits

/-- The payload after a write of consecutive bytes. -/
def overwrite (payload : Memory) (index : Nat) (data : List UInt8) : Memory :=
  payload.take index ++ data ++ payload.drop (index + data.length)

section Overwrite
variable {payload : Memory} {index : Nat} {data : List UInt8} (fits : index + data.length ≤ payload.length)
include fits
theorem length_overwrite : (overwrite payload index data).length = payload.length := by
  simp only [overwrite, length_append, length_take, length_drop]
  omega

theorem take_overwrite : (overwrite payload index data).take (index + data.length) = payload.take index ++ data := by
  have size : (payload.take index ++ data).length = index + data.length := by
    rw [length_append, length_take]
    omega
  rw [overwrite, ← size, take_left]

theorem overwrite_append (more : List UInt8) :
    overwrite (overwrite payload index data) (index + data.length) more = overwrite payload index (data ++ more) := by
  have size : (payload.take index ++ data).length = index + data.length := by
    rw [length_append, length_take]
    omega
  have behind : (overwrite payload index data).drop (index + data.length + more.length) =
      payload.drop (index + (data ++ more).length) := by
    rw [overwrite, ← drop_drop, ← size, drop_left, size, drop_drop, length_append, Nat.add_assoc]
  nth_rewrite 1 [overwrite]
  rw [take_overwrite fits, behind, overwrite]
  simp only [append_assoc]

theorem write_overwrite (type : SdsType) (len alloc : Nat) :
    (sdsAt type len alloc payload).write index data = .ok (sdsAt type len alloc (overwrite payload index data)) := by
  rw [write_sdsAt, writeBytes_of fits]
  rfl
end Overwrite

/-- The payload holds the content and its terminator, and the header describes the payload. -/
structure SdsLayout (type : SdsType) (alloc : Nat) (payload : Memory) (content : List UInt8) : Prop where
  used : type ≠ .unused
  stored : payload.take (content.length + 1) = content ++ [0]
  below : content.length ≤ alloc
  fits : alloc ≤ sdsTypeMaxSize type
  inside : alloc < payload.length
  known : type = .type5 → alloc = content.length

/-- The string is laid out with this content. -/
def SdsHolds (s : Sds) (content : List UInt8) : Prop :=
  ∃ type alloc payload, s = sdsAt type content.length alloc payload ∧ SdsLayout type alloc payload content

/-- The computation returns a string with this content. -/
def SdsYields (computation : Checked Sds) (content : List UInt8) : Prop :=
  ∃ s, computation = .ok s ∧ SdsHolds s content

namespace SdsLayout

variable {type : SdsType} {alloc : Nat} {payload : Memory} {content : List UInt8}
  (layout : SdsLayout type alloc payload content)
include layout
theorem take_content : payload.take content.length = content := by
  have shorter := congrArg (List.take content.length) layout.stored
  rwa [take_take, Nat.min_eq_left (Nat.le_succ _), take_left] at shorter

theorem room : content.length < payload.length := lt_of_le_of_lt layout.below layout.inside

theorem sdslen_eq : sdslen (sdsAt type content.length alloc payload) = .ok content.length :=
  sdslen_sdsAt layout.used _ _ _ (layout.below.trans layout.fits)

theorem sdsalloc_eq : sdsalloc (sdsAt type content.length alloc payload) = .ok alloc :=
  sdsalloc_sdsAt layout.used _ _ _ layout.fits layout.known

theorem sdsavail_eq : sdsavail (sdsAt type content.length alloc payload) = .ok (alloc - content.length) :=
  sdsavail_sdsAt layout.used _ _ _ layout.below layout.fits layout.known

theorem flags_eq : (sdsAt type content.length alloc payload).flags = .ok (sdsFlags type content.length) :=
  flags_sdsAt layout.used _ _ _

theorem read_prefix {count : Nat} (within : count ≤ content.length) :
    (sdsAt type content.length alloc payload).read 0 count = .ok (content.take count) := by
  have room := layout.room
  have shorter := congrArg (List.take count) layout.take_content
  rw [take_take, Nat.min_eq_left within] at shorter
  rw [read_sdsAt, readBytes_of (by omega), drop_zero, shorter]

end SdsLayout

/-- A string whose terminator and length were set holds the bytes before the terminator. -/
theorem SdsHolds.of_terminated {type : SdsType} {alloc len : Nat} {payload : Memory} (used : type ≠ .unused)
    (below : len ≤ alloc) (fits : alloc ≤ sdsTypeMaxSize type) (inside : alloc < payload.length) :
    SdsHolds (sdsAt type len alloc (overwrite payload len [0])) (payload.take len) := by
  have size : (payload.take len).length = len := by
    rw [length_take]
    omega
  have room : len + [(0 : UInt8)].length ≤ payload.length := below.trans_lt inside
  have stored : (overwrite payload len [0]).take ((payload.take len).length + 1) = payload.take len ++ [0] := by
    rw [size]
    exact take_overwrite room
  by_cases small : type = .type5
  · subst small
    refine ⟨.type5, len, overwrite payload len [0], by rw [size]; rfl, ?_⟩
    exact ⟨used, stored, by rw [size], below.trans fits, by rw [length_overwrite room]; omega, fun _ => size.symm⟩
  · refine ⟨type, alloc, overwrite payload len [0], by rw [size], ?_⟩
    exact ⟨used, stored, by rwa [size], fits, by rwa [length_overwrite room], fun same => absurd same small⟩

section Terminate
variable {type : SdsType} {alloc newlen : Nat} {payload : Memory} (used : type ≠ .unused) (below : newlen ≤ alloc)
  (fits : alloc ≤ sdsTypeMaxSize type) (inside : alloc < payload.length) (len : Nat)
include used below fits inside
theorem write_setlen_yields :
    SdsYields (do let s ← (sdsAt type len alloc payload).write newlen [0]; sdssetlen s newlen)
      (payload.take newlen) := by
  have room : newlen + [(0 : UInt8)].length ≤ payload.length := below.trans_lt inside
  refine ⟨_, ?_, SdsHolds.of_terminated used below fits inside⟩
  rw [write_overwrite room, ok_bind, sdssetlen_sdsAt used]

theorem setlen_write_yields :
    SdsYields (do let s ← sdssetlen (sdsAt type len alloc payload) newlen; s.write newlen [0])
      (payload.take newlen) := by
  have room : newlen + [(0 : UInt8)].length ≤ payload.length := below.trans_lt inside
  refine ⟨_, ?_, SdsHolds.of_terminated used below fits inside⟩
  rw [sdssetlen_sdsAt used, ok_bind, write_overwrite room]
end Terminate

theorem sdsclear_yields {s : Sds} {content : List UInt8} (holds : SdsHolds s content) :
    SdsYields (sdsclear s) [] := by
  obtain ⟨type, alloc, payload, rfl, layout⟩ := holds
  exact setlen_write_yields layout.used (Nat.zero_le _) layout.fits layout.inside _

end Redis

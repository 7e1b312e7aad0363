import Mathlib.Tactic

namespace Foundation
open List
variable {count : Nat} {file : OpenFile}
variable {data line part whole : List UInt8} {size : Nat}

section Write
/-- An open file description. A write goes to the offset, or to the end with `O_APPEND`. -/
structure OpenFile where
  bytes : List UInt8
  offset : Nat
  append : Bool
  deriving DecidableEq, Repr

/-- The bytes with another length. A gap is filled with zero bytes. -/
def resize (length : Nat) (bytes : List UInt8) : List UInt8 :=
  bytes.take length ++ List.replicate (length - bytes.length) 0

def OpenFile.write (file : OpenFile) (data : List UInt8) : OpenFile :=
  if data = [] then file
  else
    let start := if file.append then file.bytes.length else file.offset
    { file with
      bytes := resize start file.bytes ++ data ++ file.bytes.drop (start + data.length)
      offset := start + data.length }

/-- The call `ftruncate` does not move the offset. -/
def OpenFile.truncate (file : OpenFile) (length : Nat) : OpenFile := { file with bytes := resize length file.bytes }

theorem length_resize (length : Nat) (bytes : List UInt8) : (resize length bytes).length = length := by
  simp only [resize, length_append, length_take, length_replicate]
  omega

theorem resize_of_le {length : Nat} {bytes : List UInt8} (inside : length ≤ bytes.length) :
    resize length bytes = bytes.take length := by
  rw [resize, Nat.sub_eq_zero_of_le inside, replicate_zero, append_nil]

theorem OpenFile.write_nil (file : OpenFile) : file.write [] = file := rfl

@[simp] theorem OpenFile.write_append (file : OpenFile) (data : List UInt8) : (file.write data).append = file.append := by
  rw [OpenFile.write]
  split_ifs <;> rfl

theorem OpenFile.write_at_end (last : file.append = false → file.offset = file.bytes.length) (data : List UInt8) :
    (file.write data).bytes = file.bytes ++ data ∧
      ((file.write data).append = false → (file.write data).offset = (file.write data).bytes.length) := by
  by_cases empty : data = []
  · subst empty
    rw [append_nil]
    exact ⟨rfl, last⟩
  have start : (if file.append then file.bytes.length else file.offset) = file.bytes.length := by
    split_ifs with append
    · rfl
    · exact last (by simpa using append)
  have content : (file.write data).bytes = file.bytes ++ data := by
    simp only [OpenFile.write, if_neg empty, start]
    rw [resize_of_le le_rfl, take_length, drop_of_length_le (by omega), append_nil]
  refine ⟨content, fun _ => ?_⟩
  rw [content, length_append]
  simp only [OpenFile.write, if_neg empty, start]

variable (inside : file.append = false) (behind : file.bytes.length ≤ file.offset)
include inside behind
theorem OpenFile.write_behind (written : data ≠ []) : (file.write data).offset = file.offset + data.length ∧
      (file.write data).bytes = resize file.offset file.bytes ++ data := by
  simp only [OpenFile.write, if_neg written, inside, Bool.false_eq_true, if_false]
  rw [drop_of_length_le (by omega), append_nil]
  exact ⟨trivial, rfl⟩

theorem OpenFile.behind_write (data : List UInt8) : (file.write data).bytes.length ≤ (file.write data).offset := by
  by_cases empty : data = []
  · rw [empty]
    exact behind
  · obtain ⟨offset, bytes⟩ := OpenFile.write_behind inside behind empty
    rw [offset, bytes, length_append, length_resize]

/-- A write behind the contents can be undone, but the offset stays. -/
theorem OpenFile.truncate_write (written : data ≠ []) :
    (file.write data).truncate file.bytes.length = { file with offset := file.offset + data.length } := by
  obtain ⟨offset, bytes⟩ := OpenFile.write_behind inside behind written
  have kept : resize file.bytes.length (file.write data).bytes = file.bytes := by
    rw [bytes, resize_of_le (by rw [length_append, length_resize]; omega), resize,
      take_of_length_le behind, append_assoc, take_left]
  rw [OpenFile.truncate, kept, offset, OpenFile.write_append]

theorem OpenFile.write_write (data data' : List UInt8) : (file.write data).write data' = file.write (data ++ data') := by
  by_cases empty : data = []
  · subst empty
    rfl
  by_cases empty' : data' = []
  · subst empty'
    rw [append_nil]
    rfl
  have both : data ++ data' ≠ [] := by simp [empty]
  simp only [OpenFile.write, if_neg empty, if_neg empty', if_neg both, inside, Bool.false_eq_true, if_false,
    OpenFile.mk.injEq, and_true, length_append]
  refine ⟨?_, by omega⟩
  have length := length_resize file.offset file.bytes
  have first : resize file.offset file.bytes ++ data ++ file.bytes.drop (file.offset + data.length) =
      resize file.offset file.bytes ++ data := by
    rw [drop_of_length_le (by omega), append_nil]
  rw [first, resize_of_le (by simp [length]), take_of_length_le (by simp [length]),
    drop_of_length_le (by simp [length]), drop_of_length_le (by omega)]
  simp
end Write

/-- A stream that is read from a file: the bytes that remain, the position, and the end-of-file mark. -/
structure Reader where
  rest : List UInt8
  position : Nat
  eof : Bool
  deriving DecidableEq, Repr

/-- The next bytes up to a newline, at most `count` of them, and whether the end was met. -/
def lineLoop : Nat → List UInt8 → List UInt8 × List UInt8 × Bool
  | 0, rest => ([], rest, false)
  | _ + 1, [] => ([], [], true)
  | count + 1, byte :: rest =>
    if byte = 10 then ([byte], rest, false)
    else
      let (line, rest, eof) := lineLoop count rest
      (byte :: line, rest, eof)

/-- The call `fgets` with a buffer of `size` bytes gives nothing only at the end. -/
def Reader.fgets (reader : Reader) (size : Nat) : Option (List UInt8) × Reader :=
  let (line, rest, eof) := lineLoop (size - 1) reader.rest
  (if line = [] then none else some line, ⟨rest, reader.position + line.length, reader.eof || eof⟩)

/-- The call `fread` of one item gives all `count` bytes or nothing. -/
def Reader.fread (reader : Reader) (count : Nat) : Option (List UInt8) × Reader :=
  if count ≤ reader.rest.length then
    (some (reader.rest.take count), { reader with
      rest := reader.rest.drop count
      position := reader.position + count })
  else (none, ⟨[], reader.position + reader.rest.length, true⟩)

theorem lineLoop_line (plain : 10 ∉ line) (room : line.length < count) (rest : List UInt8) :
    lineLoop count (line ++ 10 :: rest) = (line ++ [10], rest, false) := by
  induction line generalizing count with
  | nil =>
    obtain ⟨count, rfl⟩ := Nat.exists_eq_succ_of_ne_zero (Nat.ne_of_gt room)
    rfl
  | cons byte line ih =>
    obtain ⟨count, rfl⟩ := Nat.exists_eq_succ_of_ne_zero (Nat.ne_of_gt (Nat.zero_lt_of_lt room))
    rw [mem_cons, not_or] at plain
    rw [cons_append, lineLoop, if_neg (Ne.symm plain.1), ih plain.2 (by simpa using room)]
    rfl

theorem lineLoop_torn (plain : 10 ∉ line) (room : line.length < count) : lineLoop count line = (line, [], true) := by
  induction line generalizing count with
  | nil =>
    obtain ⟨count, rfl⟩ := Nat.exists_eq_succ_of_ne_zero (Nat.ne_of_gt room)
    rfl
  | cons byte line ih =>
    obtain ⟨count, rfl⟩ := Nat.exists_eq_succ_of_ne_zero (Nat.ne_of_gt (Nat.zero_lt_of_lt room))
    rw [mem_cons, not_or] at plain
    rw [lineLoop, if_neg (Ne.symm plain.1), ih plain.2 (by simpa using room)]

theorem lineLoop_long (plain : 10 ∉ line) (long : count ≤ line.length) (rest : List UInt8) :
    lineLoop count (line ++ rest) = (line.take count, line.drop count ++ rest, false) := by
  induction line generalizing count with
  | nil =>
    obtain rfl : count = 0 := Nat.le_zero.mp long
    rfl
  | cons byte line ih =>
    cases count with
    | zero => rfl
    | succ count =>
      rw [mem_cons, not_or] at plain
      rw [cons_append, lineLoop, if_neg (Ne.symm plain.1), ih plain.2 (by simpa using long)]
      rfl

theorem Reader.fgets_line (plain : 10 ∉ line) (room : line.length + 1 < size)
    (rest : List UInt8) (position : Nat) (eof : Bool) :
    Reader.fgets ⟨line ++ 10 :: rest, position, eof⟩ size =
      (some (line ++ [10]), ⟨rest, position + (line.length + 1), eof⟩) := by
  rw [Reader.fgets, lineLoop_line plain (by omega)]
  simp

theorem Reader.fgets_torn (plain : 10 ∉ line) (room : line.length + 1 < size) (position : Nat) (eof : Bool) :
    Reader.fgets ⟨line, position, eof⟩ size =
      (if line = [] then none else some line, ⟨[], position + line.length, true⟩) := by
  rw [Reader.fgets, lineLoop_torn plain (by omega)]
  simp

theorem Reader.fread_all (data rest : List UInt8) (position : Nat) (eof : Bool) :
    Reader.fread ⟨data ++ rest, position, eof⟩ data.length = (some data, ⟨rest, position + data.length, eof⟩) := by
  rw [Reader.fread]
  simp

theorem Reader.fread_torn (short : data.length < count) (position : Nat) (eof : Bool) :
    Reader.fread ⟨data, position, eof⟩ count = (none, ⟨[], position + data.length, true⟩) := by
  rw [Reader.fread, if_neg (by simpa using short)]

/-- A text that was cut before its end. -/
def Torn (part whole : List UInt8) : Prop := part <+: whole ∧ part ≠ whole

theorem Torn.not_nil : ¬Torn part [] := by
  rintro ⟨before, cut⟩
  exact cut (prefix_nil.mp before)

theorem Torn.append {first second : List UInt8} (torn : Torn part (first ++ second)) :
    Torn part first ∨ ∃ rest, part = first ++ rest ∧ Torn rest second := by
  obtain ⟨before, cut⟩ := torn
  by_cases inside : part.length < first.length
  · refine .inl ⟨prefix_of_prefix_length_le before (prefix_append _ _) inside.le, fun same => ?_⟩
    rw [same] at inside
    omega
  · obtain ⟨rest, rfl⟩ := prefix_of_prefix_length_le (prefix_append first second) before (not_lt.mp inside)
    refine .inr ⟨rest, rfl, (prefix_append_right_inj first).mp before, fun same => ?_⟩
    exact cut (by rw [same])

theorem Torn.at_newline {rest : List UInt8} {newline : UInt8} (torn : Torn part (line ++ newline :: rest)) :
    part <+: line ∨ ∃ more, part = line ++ newline :: more ∧ Torn more rest := by
  rcases torn.append with inside | ⟨more, rfl, behind⟩
  · exact .inl inside.1
  · rcases (show Torn more ([newline] ++ rest) from behind).append with before | ⟨more, rfl, after⟩
    · have empty : more = [] := by
        rcases prefix_concat_iff.mp (show more <+: [] ++ [newline] from before.1) with same | none
        · exact absurd same before.2
        · exact prefix_nil.mp none
      rw [empty, append_nil]
      exact .inl prefix_rfl
    · exact .inr ⟨more, rfl, after⟩

theorem Torn.length_lt (torn : Torn part whole) : part.length < whole.length :=
  lt_of_le_of_ne torn.1.length_le fun same => torn.2 (torn.1.eq_of_length same)

theorem torn_iff_take : Torn part whole ↔ ∃ count < whole.length, part = whole.take count := by
  constructor
  · intro torn
    exact ⟨part.length, torn.length_lt, prefix_iff_eq_take.mp torn.1⟩
  · rintro ⟨count, short, rfl⟩
    refine ⟨List.take_prefix _ _, fun same => ?_⟩
    have length := congrArg List.length same
    rw [length_take] at length
    omega

/-- A sequence of texts that is cut after some bytes: the whole texts, and what is left of the next one. -/
def cut {A : Type} (text : A → List UInt8) : List A → Nat → List A × List UInt8
  | [], _ => ([], [])
  | item :: items, count =>
    if (text item).length ≤ count then
      let rest := cut text items (count - (text item).length)
      (item :: rest.1, rest.2)
    else ([], (text item).take count)

/-- What is left of the items behind a cut is nothing, or a part of the first of them. -/
def Leaves {A : Type} (text : A → List UInt8) (back : List A) (part : List UInt8) : Prop :=
  back = [] ∧ part = [] ∨ ∃ item rest, back = item :: rest ∧ Torn part (text item)

theorem cut_spec {A : Type} (text : A → List UInt8) (items : List A) (count : Nat) :
    ∃ back, items = (cut text items count).1 ++ back ∧
      (items.flatMap text).take count = (cut text items count).1.flatMap text ++ (cut text items count).2 ∧
      Leaves text back (cut text items count).2 := by
  induction items generalizing count with
  | nil => exact ⟨[], rfl, by simp [cut], .inl ⟨rfl, rfl⟩⟩
  | cons item items ih =>
    by_cases whole : (text item).length ≤ count
    · obtain ⟨back, layout, taken, ending⟩ := ih (count - (text item).length)
      rw [cut, if_pos whole]
      refine ⟨back, by rw [cons_append, ← layout], ?_, ending⟩
      rw [flatMap_cons, take_append, take_of_length_le whole, taken, flatMap_cons, append_assoc]
    · rw [cut, if_neg whole]
      rw [not_le] at whole
      refine ⟨item :: items, rfl, ?_, .inr ⟨item, items, rfl, torn_iff_take.mpr ⟨count, whole, rfl⟩⟩⟩
      rw [flatMap_cons, take_append_of_le_length whole.le]
      rfl

end Foundation

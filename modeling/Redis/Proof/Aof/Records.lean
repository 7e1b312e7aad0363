import Redis.Construction.Aof.Load
import Redis.Proof.Listpack.Encoding

namespace Redis.Aof
open Foundation List
variable {number : Nat} {mark : UInt8} {args : List Sds} {record : Record} {records : List Record}
  {tornCommand : Bool}

theorem digit_bounds {char : UInt8} (member : char ∈ decimal number) : isdigit char = true := by
  have digit := isDigit_of_mem_decimal member
  simpa [isdigit, IsDigit] using digit

theorem decimal_ne_nil (number : Nat) : decimal number ≠ [] := by
  rw [decimal]
  split_ifs <;> simp

theorem strtol_decimal (small : number < 2 ^ 63) {rest : Sds}
    (stops : ∀ char ∈ rest.head?, isdigit char = false) : strtol (decimal number ++ rest) = number := by
  obtain ⟨char, chars, layout⟩ := exists_cons_of_ne_nil (decimal_ne_nil number)
  have digit : IsDigit char := isDigit_of_mem_decimal (by rw [layout]; exact mem_cons_self)
  have bounds := digit.bounds
  have space : isspace char = false := by
    simp only [isspace, decide_eq_false_iff_not, UInt8.le_iff_toNat_le, ← UInt8.toNat_inj]
    simp only [UInt8.reduceToNat]
    omega
  have sign : parseSign (decimal number ++ rest) = (false, decimal number ++ rest) := by
    rw [layout, cons_append]
    unfold parseSign
    split
    · simp_all
    · simp_all
    · rfl
  have skipped : (decimal number ++ rest).dropWhile isspace = decimal number ++ rest := by
    rw [layout, cons_append, dropWhile_cons_of_neg (by simp [space])]
  have digits : (decimal number ++ rest).takeWhile isdigit = decimal number := by
    rw [takeWhile_append_of_pos fun char member => digit_bounds member]
    cases rest with
    | nil => simp
    | cons char rest => rw [takeWhile_cons_of_neg (by simpa using stops char (by simp)), append_nil]
  unfold strtol
  rw [skipped, sign]
  dsimp only
  rw [digits, decimalValue_decimal, if_neg (by simp)]
  omega

theorem atoi_decimal (small : number < 2 ^ 31) {rest : Sds}
    (stops : ∀ char ∈ rest.head?, isdigit char = false) : atoi (decimal number ++ rest) = number := by
  rw [atoi, strtol_decimal (by omega) stops]
  omega

theorem newline_notMem_decimal (number : Nat) : 10 ∉ decimal number := by
  intro member
  have digit := digit_bounds member
  simp [isdigit] at digit

theorem length_decimal_lt (small : number < 2 ^ 63) : (decimal number).length ≤ 19 := length_decimal_le 18 (by omega)

section Arguments
variable {arg part rest : Sds} {position : Nat}

/-- The length line of an argument or the count line of a command, without its newline. -/
def numberLine (mark : UInt8) (number : Nat) : Sds := mark :: (decimal number ++ [13])

theorem newline_notMem_numberLine (other : mark ≠ 10) (number : Nat) : 10 ∉ numberLine mark number := by
  simp [numberLine, other.symm, newline_notMem_decimal]

theorem length_numberLine_lt (mark : UInt8) (small : number < 2 ^ 63) :
    (numberLine mark number).length + 1 < aofAnnotationLineMaxLen := by
  have length := length_decimal_lt small
  simp only [numberLine, length_cons, length_append, length_nil, aofAnnotationLineMaxLen]
  omega

theorem fgets_numberLine (other : mark ≠ 10) (small : number < 2 ^ 63) (rest : Sds)
    (position : Nat) : Reader.fgets ⟨numberLine mark number ++ 10 :: rest, position, false⟩ aofAnnotationLineMaxLen =
      (some (mark :: (decimal number ++ [13, 10])), ⟨rest, position + ((numberLine mark number).length + 1), false⟩) := by
  rw [Reader.fgets_line (newline_notMem_numberLine other number) (length_numberLine_lt mark small)]
  simp [numberLine]

theorem fgets_torn_numberLine (other : mark ≠ 10) (small : number < 2 ^ 63)
    (before : part <+: numberLine mark number) (position : Nat) :
    Reader.fgets ⟨part, position, false⟩ aofAnnotationLineMaxLen =
      (if part = [] then none else some part, ⟨[], position + part.length, true⟩) := by
  have room := length_numberLine_lt mark small
  have shorter := before.length_le
  exact Reader.fgets_torn (fun member => newline_notMem_numberLine other number (before.subset member)) (by omega) _ _

theorem bulk_eq (arg : Sds) : bulk arg = numberLine 36 arg.length ++ 10 :: (arg ++ crlf) := by
  simp [bulk, numberLine, crlf]

theorem fread_payload (arg rest : Sds) (position : Nat) (eof : Bool) :
    (if arg.length = 0 then (some [], ⟨arg ++ rest, position, eof⟩)
      else Reader.fread ⟨arg ++ rest, position, eof⟩ arg.length) =
      (some arg, (⟨rest, position + arg.length, eof⟩ : Reader)) := by
  split_ifs with empty
  · rw [eq_nil_of_length_eq_zero empty]
    rfl
  · exact Reader.fread_all arg rest position eof

theorem readPayload_of (arg rest : Sds) (position : Nat) :
    readPayload arg.length ⟨arg ++ (crlf ++ rest), position, false⟩ =
      (.ok arg, ⟨rest, position + arg.length + 2, false⟩) := by
  have ending : Reader.fread ⟨crlf ++ rest, position + arg.length, false⟩ 2 =
      (some crlf, ⟨rest, position + arg.length + 2, false⟩) := Reader.fread_all crlf rest _ false
  rw [readPayload, fread_payload]
  dsimp only
  rw [ending]

theorem readArg_line {len : Nat} (small : len < 2 ^ 63) (rest : Sds) (position : Nat) :
    readArg ⟨numberLine 36 len ++ 10 :: rest, position, false⟩ =
      readPayload len ⟨rest, position + ((numberLine 36 len).length + 1), false⟩ := by
  rw [readArg, fgets_numberLine (by decide) small]
  dsimp only
  rw [if_neg (by simp), tail_cons, strtol_decimal small (by simp [isdigit])]
  congr 1
  omega

theorem readArg_bulk (small : arg.length < 2 ^ 63) (rest : Sds) (position : Nat) :
    readArg ⟨bulk arg ++ rest, position, false⟩ = (.ok arg, ⟨rest, position + (bulk arg).length, false⟩) := by
  have layout : bulk arg ++ rest = numberLine 36 arg.length ++ 10 :: (arg ++ (crlf ++ rest)) := by
    rw [bulk_eq]
    simp
  have length : (bulk arg).length = (numberLine 36 arg.length).length + 1 + arg.length + 2 := by
    rw [bulk_eq]
    simp [crlf]
    omega
  rw [layout, readArg_line small, readPayload_of, length]
  simp only [add_assoc]

/-- The rest of a file ends in the middle of an argument. -/
def EndsEarly {A : Type} (result : Except LoadExit A × Reader) : Prop :=
  ∃ reader, result = (.error .readerr, reader) ∧ reader.eof = true

theorem readPayload_end (len position : Nat) (eof : Bool) : EndsEarly (readPayload len ⟨[], position, eof⟩) := by
  rw [readPayload]
  by_cases empty : len = 0
  · rw [if_pos empty]
    exact ⟨_, rfl, rfl⟩
  · rw [if_neg empty, Reader.fread_torn (by simpa using Nat.pos_of_ne_zero empty)]
    exact ⟨_, rfl, rfl⟩

theorem readPayload_torn (torn : Torn part (arg ++ crlf)) (position : Nat) (eof : Bool) :
    EndsEarly (readPayload arg.length ⟨part, position, eof⟩) := by
  rw [readPayload]
  rcases torn.append with inside | ⟨rest, rfl, behind⟩
  · have short := inside.length_lt
    rw [if_neg (by omega), Reader.fread_torn short]
    exact ⟨_, rfl, rfl⟩
  · rw [fread_payload]
    dsimp only
    rw [Reader.fread_torn (show rest.length < 2 from behind.length_lt)]
    exact ⟨_, rfl, rfl⟩

theorem readArg_torn (small : arg.length < 2 ^ 63) (torn : Torn part (bulk arg)) (position : Nat) :
    EndsEarly (readArg ⟨part, position, false⟩) := by
  rw [bulk_eq] at torn
  rcases torn.at_newline with before | ⟨more, rfl, behind⟩
  · rw [readArg, fgets_torn_numberLine (by decide) small before]
    cases part with
    | nil => exact ⟨_, rfl, rfl⟩
    | cons mark part =>
      have same : mark = 36 := (cons_prefix_cons.mp before).1
      rw [if_neg (by simp)]
      dsimp only
      rw [if_neg (by simp [same])]
      exact readPayload_end _ _ _
  · rw [readArg_line small]
    exact readPayload_torn behind _ _

theorem readArgs_bulks (small : ∀ arg ∈ args, arg.length < 2 ^ 63) (rest : Sds) (position : Nat) :
    readArgs args.length ⟨args.flatMap bulk ++ rest, position, false⟩ =
      (.ok args, ⟨rest, position + (args.flatMap bulk).length, false⟩) := by
  induction args generalizing position with
  | nil => rfl
  | cons arg args ih =>
    rw [length_cons, readArgs, flatMap_cons, append_assoc, readArg_bulk (small arg (by simp))]
    dsimp only
    rw [ih (forall_mem_cons.mp small).2]
    dsimp only
    rw [length_append, add_assoc]

theorem readArgs_torn (small : ∀ arg ∈ args, arg.length < 2 ^ 63)
    (torn : Torn part (args.flatMap bulk)) (position : Nat) :
    EndsEarly (readArgs args.length ⟨part, position, false⟩) := by
  induction args generalizing part position with
  | nil => exact absurd torn Torn.not_nil
  | cons arg args ih =>
    rw [length_cons, readArgs]
    rw [flatMap_cons] at torn
    rcases torn.append with inside | ⟨rest, rfl, behind⟩
    · obtain ⟨reader, failed, eof⟩ := readArg_torn (small arg (by simp)) inside position
      rw [failed]
      exact ⟨reader, rfl, eof⟩
    · obtain ⟨reader, failed, eof⟩ := ih (forall_mem_cons.mp small).2 behind
        (position + (bulk arg).length)
      rw [readArg_bulk (small arg (by simp))]
      dsimp only
      rw [failed]
      exact ⟨reader, rfl, eof⟩
end Arguments

section Records
/-- The parts of a file: annotations and commands. -/
inductive Record where
  | stamp (timestamp : Int64)
  | command (argv : Argv)

def Record.bytes : Record → Sds
  | .stamp timestamp => ascii "#TS:" ++ signedDecimal timestamp.toInt ++ crlf
  | .command argv => catAppendOnlyGenericCommand [] argv.args

variable (timestamp : Int64)

/-- An annotation without its newline. -/
def annotationLine : Sds := ascii "#TS:" ++ signedDecimal timestamp.toInt ++ [13]

theorem stamp_eq : (Record.stamp timestamp).bytes = annotationLine timestamp ++ [10] := by
  simp [Record.bytes, annotationLine, crlf]

theorem newline_notMem_annotationLine : 10 ∉ annotationLine timestamp := by
  have number : 10 ∉ signedDecimal timestamp.toInt := by
    rw [signedDecimal]
    split_ifs
    · simp [newline_notMem_decimal]
    · exact newline_notMem_decimal _
  have name : 10 ∉ ascii "#TS:" := by decide
  simp [annotationLine, number, name]

theorem length_annotationLine_lt : (annotationLine timestamp).length ≤ 26 := by
  have lower := Int64.le_toInt timestamp
  have upper := Int64.toInt_lt timestamp
  have name : (ascii "#TS:").length = 4 := by decide
  have number : (signedDecimal timestamp.toInt).length ≤ 20 := by
    rw [signedDecimal]
    split_ifs
    · have length : (decimal (-timestamp.toInt).toNat).length ≤ 19 := length_decimal_le 18 (by omega)
      rw [length_cons]
      omega
    · have length : (decimal timestamp.toInt.toNat).length ≤ 19 := length_decimal_le 18 (by omega)
      omega
  simp only [annotationLine, length_append, length_cons, length_nil, name]
  omega

theorem command_eq (argv : Argv) : (Record.command argv).bytes =
    numberLine 42 argv.args.length ++ 10 :: argv.args.flatMap bulk := by
  simp [Record.bytes, catAppendOnlyGenericCommand, numberLine, crlf]

theorem readItem_annotation {line : Sds} (mark : line.head? = some 35) (plain : 10 ∉ line)
    (room : line.length + 1 < aofAnnotationLineMaxLen) (rest : Sds) (position : Nat) :
    readItem ⟨line ++ 10 :: rest, position, false⟩ = (.ok none, ⟨rest, position + (line.length + 1), false⟩) := by
  rw [readItem, Reader.fgets_line plain room]
  dsimp only
  rw [if_pos (by simp [mark])]

theorem readItem_stamp (rest : Sds) (position : Nat) :
    readItem ⟨(Record.stamp timestamp).bytes ++ rest, position, false⟩ =
      (.ok none, ⟨rest, position + (Record.stamp timestamp).bytes.length, false⟩) := by
  have length := length_annotationLine_lt timestamp
  rw [stamp_eq, append_assoc, singleton_append, length_append, length_singleton]
  apply readItem_annotation rfl (newline_notMem_annotationLine timestamp)
  simp only [aofAnnotationLineMaxLen]
  omega

theorem count_line (positive : 0 < number) (small : number < 2 ^ 31) (rest : Sds)
    (stops : ∀ char ∈ rest.head?, isdigit char = false) :
    (decimal number ++ rest).headD 0 ≠ 0 ∧ ¬atoi (decimal number ++ rest) < 1 ∧
      (atoi (decimal number ++ rest)).toNat = number := by
  obtain ⟨char, chars, layout, lower, _⟩ := decimal_eq_cons positive
  rw [atoi_decimal small stops]
  refine ⟨?_, by omega, by omega⟩
  rw [layout, cons_append, headD_cons]
  rintro rfl
  exact absurd lower (by decide)

theorem readItem_line (argv : Argv) (rest : Sds) (position : Nat) :
    readItem ⟨numberLine 42 argv.args.length ++ 10 :: rest, position, false⟩ =
      match readArgs argv.args.length ⟨rest, position + ((numberLine 42 argv.args.length).length + 1), false⟩ with
      | (.error exit, reader) => (.error exit, reader)
      | (.ok argv, reader) => (.ok (some argv), reader) := by
  have argc := argv.argc
  obtain ⟨some, enough, count⟩ := count_line (length_pos_iff.mpr argv.nonempty) argc [13, 10] (by simp [isdigit])
  rw [readItem, fgets_numberLine (by decide) (by omega)]
  dsimp only
  rw [if_neg (by simp), if_neg (by simp), tail_cons, if_neg some, if_neg enough]
  generalize (atoi (decimal argv.args.length ++ [13, 10])).toNat = n at count ⊢
  subst count
  rfl

theorem readItem_command (argv : Argv) (rest : Sds) (position : Nat) :
    readItem ⟨(Record.command argv).bytes ++ rest, position, false⟩ =
      (.ok (some argv.args), ⟨rest, position + (Record.command argv).bytes.length, false⟩) := by
  rw [command_eq, append_assoc, cons_append, readItem_line, readArgs_bulks argv.lens]
  simp only [length_append, length_cons]
  rw [show ∀ a b c : Nat, a + (b + 1) + c = a + (b + (c + 1)) by omega]

theorem readItem_end (position : Nat) (eof : Bool) :
    readItem ⟨[], position, eof⟩ = (.error .endOfFile, ⟨[], position, true⟩) := by
  rw [readItem, Reader.fgets_torn (by simp) (by decide)]
  rfl

theorem readArgs_end {argc : Nat} (positive : 0 < argc) (position : Nat) (eof : Bool) :
    EndsEarly (readArgs argc ⟨[], position, eof⟩) := by
  obtain ⟨argc, rfl⟩ := Nat.exists_eq_succ_of_ne_zero (Nat.ne_of_gt positive)
  rw [readArgs, readArg, Reader.fgets_torn (by simp) (by decide)]
  exact ⟨_, rfl, rfl⟩

theorem torn_count (positive : 0 < number) (small : number < 2 ^ 31) {part : Sds} (some : part ≠ [])
    (before : part <+: decimal number ++ [13]) :
    part.headD 0 ≠ 0 ∧ ¬atoi part < 1 ∧ 0 < (atoi part).toNat := by
  rcases prefix_concat_iff.mp before with rfl | digits
  · obtain ⟨head, enough, count⟩ := count_line positive small [13] (by simp [isdigit])
    exact ⟨head, enough, by omega⟩
  · obtain ⟨smaller, positive', upper, rfl⟩ := exists_of_prefix_decimal positive some digits
    obtain ⟨head, enough, count⟩ := count_line positive' (by omega) [] (by simp)
    rw [append_nil] at head enough count
    exact ⟨head, enough, by omega⟩

theorem readItem_torn_command {argv : Argv} {part : Sds} (some : part ≠ [])
    (torn : Torn part (Record.command argv).bytes) (position : Nat) : EndsEarly (readItem ⟨part, position, false⟩) := by
  have argc := argv.argc
  rw [command_eq] at torn
  rcases torn.at_newline with before | ⟨more, rfl, behind⟩
  · rw [readItem, fgets_torn_numberLine (by decide) (by omega) before, if_neg some]
    obtain ⟨mark, digits, rfl⟩ := exists_cons_of_ne_nil some
    obtain ⟨rfl, start⟩ := cons_prefix_cons.mp before
    dsimp only
    rw [if_neg (by simp), if_neg (by simp), tail_cons]
    by_cases none : digits = []
    · rw [none, if_pos (show ([] : Sds).headD 0 = 0 from rfl)]
      exact ⟨_, rfl, rfl⟩
    · obtain ⟨head, enough, count⟩ := torn_count (length_pos_iff.mpr argv.nonempty) argc none start
      rw [if_neg head, if_neg enough]
      obtain ⟨reader, failed, eof⟩ := readArgs_end count (position + (42 :: digits).length) true
      rw [failed]
      exact ⟨reader, rfl, eof⟩
  · obtain ⟨reader, failed, eof⟩ := readArgs_torn argv.lens behind
      (position + ((numberLine 42 argv.args.length).length + 1))
    rw [readItem_line, failed]
    exact ⟨reader, rfl, eof⟩

theorem torn_stamp {timestamp : Int64} {part : Sds} (nonempty : part ≠ []) (torn : Torn part (Record.stamp timestamp).bytes) :
    part.head? = some 35 ∧ 10 ∉ part ∧ part.length ≤ 26 := by
  have before : part <+: annotationLine timestamp := by
    rw [stamp_eq] at torn
    exact torn.at_newline.resolve_right fun ⟨more, _, behind⟩ => Torn.not_nil behind
  obtain ⟨mark, rest, rfl⟩ := exists_cons_of_ne_nil nonempty
  refine ⟨congrArg some (cons_prefix_cons.mp before).1, fun member => ?_, ?_⟩
  · exact newline_notMem_annotationLine timestamp (before.subset member)
  · exact before.length_le.trans (length_annotationLine_lt timestamp)

theorem readItem_torn_stamp {timestamp : Int64} {part : Sds} (some : part ≠ [])
    (torn : Torn part (Record.stamp timestamp).bytes) (position : Nat) :
    readItem ⟨part, position, false⟩ = (.ok none, ⟨[], position + part.length, true⟩) := by
  obtain ⟨mark, plain, length⟩ := torn_stamp some torn
  rw [readItem, Reader.fgets_torn plain (by simp only [aofAnnotationLineMaxLen]; omega), if_neg some]
  dsimp only
  rw [if_pos mark]

theorem readItem_stamp_command {timestamp : Int64} {part : Sds} (some : part ≠ [])
    (torn : Torn part (Record.stamp timestamp).bytes) (argv : Argv) (rest : Sds) (position : Nat) : ∃ position',
    readItem ⟨part ++ ((Record.command argv).bytes ++ rest), position, false⟩ =
      (.ok none, ⟨argv.args.flatMap bulk ++ rest, position', false⟩) := by
  obtain ⟨mark, plain, length⟩ := torn_stamp some torn
  have argc := argv.argc
  have number := length_decimal_lt (show argv.args.length < 2 ^ 63 by omega)
  rw [command_eq, append_assoc, cons_append, ← append_assoc]
  refine ⟨_, readItem_annotation (by simp [mark]) ?_ ?_ _ position⟩
  · rw [mem_append, not_or]
    exact ⟨plain, newline_notMem_numberLine (by decide) argv.args.length⟩
  · simp only [numberLine, length_append, length_cons, length_nil, aofAnnotationLineMaxLen]
    omega

theorem readItem_bulk {arg : Sds} (small : arg.length < 2 ^ 63) (rest : Sds) (position : Nat) : ∃ reader,
    readItem ⟨bulk arg ++ rest, position, false⟩ = (.error .fmterr, reader) := by
  rw [readItem, bulk_eq, append_assoc, cons_append, fgets_numberLine (by decide) small]
  dsimp only
  rw [if_neg (by simp), if_pos (by simp)]
  exact ⟨_, rfl⟩
end Records

section Loop
variable {config : Config} {known : Sds → Bool}

/-- The variables of the loader between two records. -/
structure Progress where
  client : FakeClient
  position : Nat
  validUpTo : Nat
  validBeforeMulti : Nat

variable (progress : Progress) (rdbLoadRio : Sds → Option Nat)

/-- The state of the loop before the bytes that remain. -/
def Progress.before (rest : Sds) : LoadState :=
  ⟨⟨rest, progress.position, false⟩, progress.client, progress.validUpTo, progress.validBeforeMulti⟩

/-- The command of a record is in the command table. -/
def Record.Known (known : Sds → Bool) : Record → Prop
  | .stamp _ => True
  | .command argv => (lookupCommand known argv.args).isSome

/-- What the loader does with one record. -/
def Progress.deliver (config : Config) (known : Sds → Bool) (progress : Progress) (record : Record) : Progress :=
  match record with
  | .stamp _ => { progress with position := progress.position + record.bytes.length }
  | .command argv =>
    match lookupCommand known argv.args with
    | none => progress
    | some cmd =>
      { client := runCommand config progress.client cmd argv.args
        position := progress.position + record.bytes.length
        validUpTo := progress.position + record.bytes.length
        validBeforeMulti := if cmd = .multiCommand then progress.validUpTo else progress.validBeforeMulti }

theorem loadLoop_record (found : record.Known known) (progress : Progress) (fuel : Nat) (rest : Sds) :
    loadLoop config known true (fuel + 1) (progress.before (record.bytes ++ rest)) =
      loadLoop config known true fuel ((progress.deliver config known record).before rest) := by
  rw [loadLoop, Progress.before]
  cases record with
  | stamp timestamp =>
    dsimp only
    rw [readItem_stamp]
    rfl
  | command argv =>
    obtain ⟨cmd, looked⟩ := Option.isSome_iff_exists.mp found
    dsimp only
    rw [readItem_command]
    dsimp only
    rw [looked, Progress.deliver]
    dsimp only
    rw [looked]
    rfl

theorem loadLoop_records (found : ∀ record ∈ records, record.Known known) (progress : Progress)
    (fuel : Nat) (rest : Sds) :
    loadLoop config known true (fuel + records.length) (progress.before (records.flatMap Record.bytes ++ rest)) =
      loadLoop config known true fuel ((records.foldl (Progress.deliver config known) progress).before rest) := by
  induction records generalizing progress with
  | nil => rfl
  | cons record records ih =>
    rw [flatMap_cons, append_assoc, length_cons, ← add_assoc, loadLoop_record (found record (by simp)),
      ih (forall_mem_cons.mp found).2]
    rfl

/-- What can stand behind the whole records of a file that was cut. The mark tells that it is a command. -/
inductive Remainder : Sds → Bool → Prop where
  | nothing : Remainder [] false
  | stamp {part : Sds} {timestamp : Int64} (some : part ≠ [])
      (torn : Torn part (Record.stamp timestamp).bytes) : Remainder part false
  | command {part : Sds} {argv : Argv} (some : part ≠ []) (torn : Torn part (Record.command argv).bytes) :
      Remainder part true

/-- The result of the loader behind the last whole record. -/
def Progress.ends (file : Sds) (tornCommand : Bool) : LoadResult :=
  if tornCommand then ⟨.truncated, file.take progress.validUpTo, progress.client⟩
  else if progress.client.multi then ⟨.truncated, file.take progress.validBeforeMulti, progress.client⟩
  else ⟨.ok, file, progress.client⟩

theorem finishLoad_remainder {part : Sds} (remainder : Remainder part tornCommand)
    (progress : Progress) (file : Sds) {fuel : Nat} (enough : part.length + 1 ≤ fuel) :
    finishLoad true file (loadLoop config known true fuel (progress.before part)) = progress.ends file tornCommand := by
  obtain ⟨fuel, rfl⟩ := Nat.exists_eq_add_of_le' (show 1 ≤ fuel by omega)
  rw [loadLoop, Progress.before]
  cases remainder with
  | nothing =>
    dsimp only
    rw [readItem_end]
    rfl
  | stamp some torn =>
    have length := length_pos_iff.mpr some
    obtain ⟨fuel, rfl⟩ := Nat.exists_eq_add_of_le' (show 1 ≤ fuel by omega)
    dsimp only
    rw [readItem_torn_stamp some torn]
    dsimp only
    rw [loadLoop, readItem_end]
    rfl
  | command some torn =>
    obtain ⟨reader, failed, eof⟩ := readItem_torn_command some torn progress.position
    dsimp only
    rw [failed]
    dsimp only
    rw [finishLoad, eof, if_pos rfl, Progress.ends, if_pos rfl, unexpectedEnd, if_pos rfl]

theorem Record.bytes_eq_cons (record : Record) : ∃ mark rest, record.bytes = mark :: rest ∧ mark ≠ 82 := by
  cases record with
  | stamp timestamp => exact ⟨35, _, rfl, by decide⟩
  | command argv => exact ⟨42, _, rfl, by decide⟩

theorem Torn.head {part : Sds} (some : part ≠ []) (torn : Torn part record.bytes) :
    ∃ mark rest, part = mark :: rest ∧ mark ≠ 82 := by
  obtain ⟨mark, rest, layout, other⟩ := record.bytes_eq_cons
  obtain ⟨own, rest', rfl⟩ := exists_cons_of_ne_nil some
  obtain ⟨more, same⟩ := torn.1
  rw [layout] at same
  exact ⟨own, rest', rfl, (List.cons.inj same).1 ▸ other⟩

theorem length_records_le (records : List Record) : records.length ≤ (records.flatMap Record.bytes).length := by
  induction records with
  | nil => exact le_rfl
  | cons record records ih =>
    obtain ⟨mark, rest, layout, _⟩ := record.bytes_eq_cons
    rw [flatMap_cons, length_append, layout, length_cons, length_cons]
    omega

def Progress.start : Progress := ⟨createAOFClient, 0, 0, 0⟩

theorem loadSingleAppendOnlyFile_front (found : ∀ record ∈ records, record.Known known) {rest : Sds}
    (plain : ∃ mark more, records.flatMap Record.bytes ++ rest = mark :: more ∧ mark ≠ 82) : ∃ fuel, rest.length + 1 ≤ fuel ∧
    loadSingleAppendOnlyFile config known rdbLoadRio true (records.flatMap Record.bytes ++ rest) =
      finishLoad true (records.flatMap Record.bytes ++ rest) (loadLoop config known true fuel
        ((records.foldl (Progress.deliver config known) .start).before rest)) := by
  obtain ⟨mark, more, layout, other⟩ := plain
  have some : records.flatMap Record.bytes ++ rest ≠ [] := by
    rw [layout]
    exact cons_ne_nil mark more
  have plain' : (records.flatMap Record.bytes ++ rest).take 5 ≠ ascii "REDIS" := by
    rw [layout]
    intro same
    exact other (List.cons.inj same).1
  have short := length_records_le records
  obtain ⟨extra, fuel⟩ := Nat.exists_eq_add_of_le' (show records.length + (rest.length + 1) ≤
    (records.flatMap Record.bytes ++ rest).length + 1 by rw [length_append]; omega)
  refine ⟨extra + (rest.length + 1), by omega, ?_⟩
  rw [loadSingleAppendOnlyFile, if_neg some, if_neg plain']
  dsimp only
  rw [drop_zero, fuel, show extra + (records.length + (rest.length + 1)) =
    (extra + (rest.length + 1)) + records.length by omega]
  have delivered := @loadLoop_records records config known found .start (extra + (rest.length + 1)) rest
  rw [show (⟨⟨records.flatMap Record.bytes ++ rest, 0, false⟩, createAOFClient, 0, 0⟩ : LoadState) =
    Progress.start.before (records.flatMap Record.bytes ++ rest) from rfl, delivered]

theorem exists_mark (records : List Record) {rest : Sds}
    (start : rest = [] ∨ ∃ mark more, rest = mark :: more ∧ mark ≠ 82) (some : records.flatMap Record.bytes ++ rest ≠ []) :
    ∃ mark more, records.flatMap Record.bytes ++ rest = mark :: more ∧ mark ≠ 82 := by
  cases records with
  | nil => exact start.resolve_left some
  | cons record records =>
    obtain ⟨mark, more, layout, other⟩ := record.bytes_eq_cons
    exact ⟨mark, more ++ (records.flatMap Record.bytes ++ rest), by simp [layout], other⟩

/-- The loader delivers the whole records and then handles what stands behind them. -/
theorem loadSingleAppendOnlyFile_records (found : ∀ record ∈ records, record.Known known) {part : Sds}
    (remainder : Remainder part tornCommand) (some : records.flatMap Record.bytes ++ part ≠ []) :
    loadSingleAppendOnlyFile config known rdbLoadRio true (records.flatMap Record.bytes ++ part) =
      (records.foldl (Progress.deliver config known) .start).ends (records.flatMap Record.bytes ++ part) tornCommand := by
  have start : part = [] ∨ ∃ mark more, part = mark :: more ∧ mark ≠ 82 := by
    cases remainder with
    | nothing => exact .inl rfl
    | stamp some torn => exact .inr (Torn.head some torn)
    | command some torn => exact .inr (Torn.head some torn)
  obtain ⟨fuel, enough, loaded⟩ := @loadSingleAppendOnlyFile_front records config known rdbLoadRio found part
    (exists_mark records start some)
  rw [loaded]
  exact finishLoad_remainder remainder _ _ enough

/-- A command behind a torn annotation is a format error, since its first line is read with the annotation. -/
theorem load_torn_stamp (found : ∀ record ∈ records, record.Known known) {part : Sds} {timestamp : Int64}
    (some : part ≠ []) (torn : Torn part (Record.stamp timestamp).bytes) (argv : Argv) (rest : Sds) :
    (loadSingleAppendOnlyFile config known rdbLoadRio true
      (records.flatMap Record.bytes ++ (part ++ ((Record.command argv).bytes ++ rest)))).status = .failed := by
  obtain ⟨mark, more, layout, other⟩ := Torn.head some torn
  obtain ⟨fuel, enough, loaded⟩ := @loadSingleAppendOnlyFile_front records config known rdbLoadRio found
    (part ++ ((Record.command argv).bytes ++ rest))
    (exists_mark records (.inr ⟨mark, more ++ ((Record.command argv).bytes ++ rest), by rw [layout]; rfl, other⟩)
      (by simp [some]))
  obtain ⟨fuel, rfl⟩ := Nat.exists_eq_add_of_le' (show 2 ≤ fuel by
    rw [layout, cons_append, length_cons] at enough; omega)
  obtain ⟨position, first⟩ := readItem_stamp_command some torn argv rest
    (records.foldl (Progress.deliver config known) .start).position
  obtain ⟨arg, args, args'⟩ := exists_cons_of_ne_nil argv.nonempty
  have small := argv.lens arg (by rw [args']; exact mem_cons_self)
  obtain ⟨reader, second⟩ := readItem_bulk small (args.flatMap bulk ++ rest) position
  rw [args', flatMap_cons, append_assoc] at first
  rw [loaded, loadLoop, Progress.before]
  dsimp only
  rw [first]
  dsimp only
  rw [loadLoop, second]
  rfl
end Loop
end Redis.Aof

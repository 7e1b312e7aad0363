import Mathlib.Data.Bool.AllAny
import Mathlib.Data.List.TakeWhile
import Redis.Construction.Aof.Manifest
import Redis.Proof.Aof.Records
import Redis.Proof.SplitArgs.Quoting

namespace Redis.Aof
open Foundation SplitArgs List
variable {name : Aof.Sds} {char : UInt8} {ai : AofInfo}

/-- The file name as it stands in the line. -/
def writtenName (name : Aof.Sds) : Aof.Sds := if sdsneedsrepr name then sdscatrepr [] name else name

/-- The line of an entry without its newline. -/
def lineText (ai : AofInfo) : Aof.Sds :=
  ascii "file" ++ 32 :: (writtenName ai.fileName ++ 32 :: (ascii "seq" ++ 32 :: (signedDecimal ai.fileSeq ++
    32 :: (ascii "type" ++ 32 :: [ai.fileType.char]))))

theorem aofInfoFormat_eq (buf : Aof.Sds) (ai : AofInfo) : aofInfoFormat buf ai = buf ++ (lineText ai ++ [10]) := by
  have first : ascii "file " = ascii "file" ++ [32] := rfl
  have second : ascii " seq " = 32 :: (ascii "seq" ++ [32]) := rfl
  have third : ascii " type " = 32 :: (ascii "type" ++ [32]) := rfl
  rw [aofInfoFormat, lineText, writtenName, first, second, third]
  simp

/-- The entries in the order of their lines. -/
def entries (am : AofManifest) : List AofInfo := am.baseAofInfo.toList ++ am.historyAofList ++ am.incrAofList

theorem foldl_aofInfoFormat (infos : List AofInfo) (buf : Aof.Sds) :
    infos.foldl aofInfoFormat buf = buf ++ infos.flatMap fun ai => lineText ai ++ [10] := by
  induction infos generalizing buf with
  | nil => rw [foldl_nil, flatMap_nil, append_nil]
  | cons ai infos ih => rw [foldl_cons, ih, aofInfoFormat_eq, append_assoc, flatMap_cons]

theorem getAofManifestAsString_eq (am : AofManifest) :
    getAofManifestAsString am = (entries am).flatMap fun ai => lineText ai ++ [10] := by
  rw [getAofManifestAsString, foldl_aofInfoFormat, foldl_aofInfoFormat, entries, flatMap_append, flatMap_append]
  cases am.baseAofInfo with
  | none => simp
  | some ai =>
    simp only [aofInfoFormat_eq, nil_append, Option.toList_some, flatMap_cons, flatMap_nil, append_nil]

/-- An entry with a usable name and number. -/
structure FineEntry (ai : AofInfo) : Prop where
  named : ai.fileName ≠ []
  terminated : 0 ∉ ai.fileName
  path : pathIsBaseName ai.fileName = true
  positive : 0 < ai.fileSeq
  bounded : ai.fileSeq < 2 ^ 63

/-- The writer quotes the name, or it has no apostrophe. -/
def Splittable (name : Aof.Sds) : Prop := sdsneedsrepr name = true ∨ 39 ∉ name

theorem splitLoop_writtenName (named : name ≠ []) (splittable : Splittable name)
    (vector : List Aof.Sds) (rest : Aof.Sds) :
    splitLoop vector 0 (writtenName name ++ 32 :: rest) = splitLoop (vector ++ [name]) 0 rest := by
  rw [writtenName]
  cases needs : sdsneedsrepr name with
  | true => exact splitLoop_sdscatrepr name vector rest
  | false =>
    have plain := plain_of_not_needsrepr needs (splittable.resolve_left (by rw [needs]; exact Bool.false_ne_true))
    obtain ⟨char, word, rfl⟩ := exists_cons_of_ne_nil named
    exact splitLoop_word (fun other member => (plain other member).1) (plain char mem_cons_self).2 vector rest

theorem plain_digit (digit : IsDigit char) : Plain char ∧ isspace char = false := by
  have bounds := digit.bounds
  simp only [Plain, isspace, decide_eq_false_iff_not, UInt8.le_iff_toNat_le, ne_eq, ← UInt8.toNat_inj,
    UInt8.reduceToNat]
  omega

theorem splitLoop_decimal (number : Nat) (vector : List Aof.Sds) (rest : Aof.Sds) :
    splitLoop vector 0 (decimal number ++ 32 :: rest) = splitLoop (vector ++ [decimal number]) 0 rest := by
  have digits : ∀ char ∈ decimal number, Plain char ∧ isspace char = false := fun char member =>
    plain_digit (isDigit_of_mem_decimal member)
  obtain ⟨char, word, same⟩ := exists_cons_of_ne_nil (decimal_ne_nil number)
  rw [same] at digits ⊢
  exact splitLoop_word (fun other member => (digits other member).1) (digits char mem_cons_self).2 vector rest

theorem sdssplitargs_lineText (fine : FineEntry ai) (splittable : Splittable ai.fileName) :
    sdssplitargs (lineText ai) =
      some [ascii "file", ai.fileName, ascii "seq", decimal ai.fileSeq.toNat, ascii "type", [ai.fileType.char]] := by
  have seq : signedDecimal ai.fileSeq = decimal ai.fileSeq.toNat := by
    rw [signedDecimal, if_neg (by have := fine.positive; omega)]
  have keyword : ∀ (char : UInt8) (word : Aof.Sds), ((char :: word).all fun other => Plain other) = true →
      isspace char = false →
      ∀ vector rest, splitLoop vector 0 (char :: word ++ 32 :: rest) = splitLoop (vector ++ [char :: word]) 0 rest :=
    fun _ _ plain noSpace vector rest => splitLoop_word (all_iff_forall_prop.1 plain) noSpace vector rest
  have last : ∀ vector, splitLoop vector 0 [ai.fileType.char] = some (vector ++ [[ai.fileType.char]]) := by
    apply splitLoop_last
    · cases ai.fileType <;> exact all_iff_forall_prop.1 (by decide)
    · cases ai.fileType <;> decide
  rw [sdssplitargs, lineText, show ascii "file" = 102 :: [105, 108, 101] from rfl,
    show ascii "seq" = 115 :: [101, 113] from rfl, show ascii "type" = 116 :: [121, 112, 101] from rfl, seq,
    keyword _ _ (by decide) (by decide), splitLoop_writtenName fine.named splittable,
    keyword _ _ (by decide) (by decide), splitLoop_decimal, keyword _ _ (by decide) (by decide), last]
  rfl

theorem cString_of_terminated {bytes : Aof.Sds} (terminated : 0 ∉ bytes) : cString bytes = bytes := by
  rw [cString, takeWhile_eq_self_iff]
  intro char member
  rw [decide_eq_true_iff]
  rintro rfl
  exact terminated member

theorem parseFields_fields (fine : FineEntry ai) :
    parseFields [ascii "file", ai.fileName, ascii "seq", decimal ai.fileSeq.toNat, ascii "type", [ai.fileType.char]]
      ⟨none, 0, 0⟩ = .ok ⟨some ai.fileName, ai.fileSeq, ai.fileType.char⟩ := by
  have name := cString_of_terminated fine.terminated
  have digits : cString (decimal ai.fileSeq.toNat) = decimal ai.fileSeq.toNat := by
    apply cString_of_terminated
    intro member
    have bounds := (isDigit_of_mem_decimal member).bounds
    simp at bounds
  have seq : atoll (decimal ai.fileSeq.toNat) = ai.fileSeq := by
    have positive := fine.positive
    have bounded := fine.bounded
    have read := @strtol_decimal ai.fileSeq.toNat (by omega) [] (by simp)
    rw [append_nil] at read
    rw [atoll, digits]
    omega
  rw [parseFields, if_pos (by decide), name, if_pos fine.path, parseFields, if_neg (by decide), if_pos (by decide), seq,
    parseFields, if_neg (by decide), if_neg (by decide), if_pos (by decide), parseFields]
  · rfl
  · exact fun _ _ _ same => by cases same

theorem lineText_ne_nil (ai : AofInfo) : lineText ai ≠ [] := cons_ne_nil _ _

theorem parseLine_lineText (fine : FineEntry ai) (splittable : Splittable ai.fileName) :
    parseLine (lineText ai) = .ok (ai.fileName, ai.fileSeq, ai.fileType.char) := by
  have typed : ai.fileType.char ≠ 0 := by cases ai.fileType <;> decide
  rw [parseLine, if_neg (lineText_ne_nil ai), sdssplitargs_lineText fine splittable]
  dsimp only
  rw [if_neg (by simp), parseFields_fields fine, ok_bind]
  dsimp only
  rw [if_neg]
  · rfl
  · rintro (zero | zero)
    · exact absurd fine.positive (by omega)
    · exact typed zero

theorem mem_reprChar {other : UInt8} (member : other ∈ reprChar char) : isprint other = true := by
  have hex : ∀ digit < 16, isprint (hexDigit digit) = true := by decide
  have range : char.toNat < 256 := char.toNat_lt
  rw [reprChar] at member
  split_ifs at member with special newline carriage tab bell backspace print
  · rcases special with rfl | rfl
    · simp only [mem_cons, not_mem_nil, or_false, or_self] at member
      rw [member]
      decide
    · simp only [mem_cons, not_mem_nil, or_false] at member
      rcases member with rfl | rfl <;> decide
  all_goals simp only [mem_cons, not_mem_nil, or_false] at member
  · rcases member with rfl | rfl <;> decide
  · rcases member with rfl | rfl <;> decide
  · rcases member with rfl | rfl <;> decide
  · rcases member with rfl | rfl <;> decide
  · rcases member with rfl | rfl <;> decide
  · rwa [member]
  · rcases member with rfl | rfl | rfl | rfl
    · decide
    · decide
    · exact hex _ (by omega)
    · exact hex _ (by omega)

theorem isprint_writtenName (member : char ∈ writtenName name) : isprint char = true := by
  rw [writtenName] at member
  split_ifs at member with needs
  · rw [sdscatrepr, mem_append, mem_append] at member
    rcases member with (quote | inside) | quote
    · rw [mem_singleton.mp quote]
      decide
    · obtain ⟨original, -, escaped⟩ := mem_flatMap.mp inside
      exact mem_reprChar escaped
    · rw [mem_singleton.mp quote]
      decide
  · have unquoted := any_eq_false.mp (Bool.not_eq_true _ ▸ needs) char member
    simp only [decide_eq_true_eq, not_or] at unquoted
    simpa using unquoted.2.2.2.2.2.2.2.1

theorem isprint_signedDecimal {value : Int} (member : char ∈ signedDecimal value) : isprint char = true := by
  have digit : ∀ number, char ∈ decimal number → isprint char = true := by
    intro number inside
    have bounds := (isDigit_of_mem_decimal inside).bounds
    simp only [isprint, decide_eq_true_iff, UInt8.le_iff_toNat_le, UInt8.reduceToNat]
    omega
  rw [signedDecimal] at member
  split_ifs at member
  · rcases mem_cons.mp member with rfl | inside
    · decide
    · exact digit _ inside
  · exact digit _ member

theorem isprint_lineText (member : char ∈ lineText ai) : isprint char = true := by
  have keyword : ∀ word : Aof.Sds, word.all isprint = true → char ∈ word → isprint char = true :=
    fun _ all inside => all_eq_true.1 all char inside
  simp only [lineText, mem_append, mem_cons, not_mem_nil, or_false] at member
  rcases member with key | rfl | name | rfl | key | rfl | seq | rfl | key | rfl | rfl
  · exact keyword _ (by decide) key
  · decide
  · exact isprint_writtenName name
  · decide
  · exact keyword _ (by decide) key
  · decide
  · exact isprint_signedDecimal seq
  · decide
  · exact keyword _ (by decide) key
  · decide
  · cases ai.fileType <;> decide

theorem not_mem_lineText (hidden : isprint char = false) : char ∉ lineText ai := by
  intro member
  rw [isprint_lineText member] at hidden
  cases hidden

theorem unquoted_lineText (unquoted : sdsneedsrepr ai.fileName = false) : 34 ∉ lineText ai ∧ 92 ∉ lineText ai := by
  have name : ∀ char ∈ ai.fileName, char ≠ 92 ∧ char ≠ 34 := by
    intro char member
    have single := any_eq_false.mp unquoted char member
    simp only [decide_eq_true_eq, not_or] at single
    exact ⟨single.1, single.2.1⟩
  have digits : ∀ number, ∀ char ∈ decimal number, char ≠ 92 ∧ char ≠ 34 := by
    intro number char member
    have bounds := (isDigit_of_mem_decimal member).bounds
    simp only [ne_eq, ← UInt8.toNat_inj, UInt8.reduceToNat]
    omega
  have seq : ∀ char ∈ signedDecimal ai.fileSeq, char ≠ 92 ∧ char ≠ 34 := by
    intro char member
    rw [signedDecimal] at member
    split_ifs at member
    · rcases mem_cons.mp member with rfl | inside
      · decide
      · exact digits _ char inside
    · exact digits _ char member
  have all : ∀ char ∈ lineText ai, char ≠ 92 ∧ char ≠ 34 := by
    intro char member
    have keyword : ∀ word : Aof.Sds, (word.all fun other => other ≠ 92 ∧ other ≠ 34) = true → char ∈ word →
        char ≠ 92 ∧ char ≠ 34 :=
      fun _ plain inside => all_iff_forall_prop.1 plain char inside
    rw [lineText, writtenName, if_neg (by rw [unquoted]; exact Bool.false_ne_true)] at member
    simp only [mem_append, mem_cons, not_mem_nil, or_false] at member
    rcases member with key | rfl | inside | rfl | key | rfl | inside | rfl | key | rfl | rfl
    · exact keyword _ (by decide) key
    · decide
    · exact name char inside
    · decide
    · exact keyword _ (by decide) key
    · decide
    · exact seq char inside
    · decide
    · exact keyword _ (by decide) key
    · decide
    · cases ai.fileType <;> decide
  exact ⟨fun inside => (all 34 inside).2 rfl, fun inside => (all 92 inside).1 rfl⟩

theorem sdstrim_lineText (ai : AofInfo) : sdstrim (lineText ai ++ [10]) (ascii " \t\r\n") = lineText ai := by
  have front : ∃ rest, lineText ai = 102 :: rest := ⟨_, rfl⟩
  have back : ∃ rest, lineText ai = rest ++ [ai.fileType.char] := by
    refine ⟨ascii "file" ++ 32 :: (writtenName ai.fileName ++ 32 :: (ascii "seq" ++ 32 :: (signedDecimal ai.fileSeq ++
      32 :: (ascii "type" ++ [32])))), ?_⟩
    simp [lineText]
  have kept : ai.fileType.char ∉ ascii " \t\r\n" := by cases ai.fileType <;> decide
  obtain ⟨front, first⟩ := front
  obtain ⟨back, last⟩ := back
  have start : (lineText ai ++ [10]).dropWhile (· ∈ ascii " \t\r\n") = lineText ai ++ [10] := by
    rw [first, cons_append, dropWhile_cons_of_neg (by decide)]
  rw [sdstrim, start, reverse_append, reverse_singleton, singleton_append,
    dropWhile_cons_of_pos (by decide), last, reverse_append, reverse_singleton, singleton_append,
    dropWhile_cons_of_neg (by simpa using kept)]
  simp

theorem length_lineText (ai : AofInfo) :
    (lineText ai).length = 17 + (writtenName ai.fileName).length + (signedDecimal ai.fileSeq).length := by
  have words : (ascii "file").length = 4 ∧ (ascii "seq").length = 3 ∧ (ascii "type").length = 4 := by decide
  simp only [lineText, length_append, length_cons, length_nil]
  omega

end Redis.Aof

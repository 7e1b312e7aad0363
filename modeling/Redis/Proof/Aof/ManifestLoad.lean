import Redis.Proof.Aof.ManifestLine

namespace Redis.Aof
open Foundation SplitArgs List
variable {ai : AofInfo} {am loaded : AofManifest} {infos : List AofInfo} {parsed : Aof.Sds × Int × UInt8}
variable {fuel position linenum : Nat} {eof : Bool}

/-- The length of a line with its newline: the name as it is written, the digits, and eighteen other bytes. -/
def lineLength (ai : AofInfo) : Nat := 18 + (writtenName ai.fileName).length + (signedDecimal ai.fileSeq).length

/-- The line of the entry fits in the loader's buffer. -/
def Fits (ai : AofInfo) : Prop := lineLength ai ≤ manifestMaxLine

theorem fits_iff : Fits ai ↔ (lineText ai).length + 1 ≤ manifestMaxLine := by
  rw [Fits, lineLength, length_lineText]
  omega

/-- The loader can read the line of the entry. -/
structure Readable (ai : AofInfo) : Prop where
  fine : FineEntry ai
  splittable : Splittable ai.fileName
  fits : Fits ai

/-- The manifest and the last number of an incremental file, with one more entry. -/
def addEntry (state : AofManifest × Int) (ai : AofInfo) : Except ManifestError (AofManifest × Int) :=
  addInfo state.1 state.2 (ai.fileName, ai.fileSeq, ai.fileType.char)

/-- The contents of the manifest file. -/
def linesOf (infos : List AofInfo) : Aof.Sds := infos.flatMap fun ai => lineText ai ++ [10]

theorem linesOf_cons (ai : AofInfo) (infos : List AofInfo) :
    linesOf (ai :: infos) = lineText ai ++ 10 :: linesOf infos := by
  rw [linesOf, flatMap_cons, append_assoc]
  rfl

theorem fgets_linesOf (fits : Fits ai) (rest : Aof.Sds) (position : Nat) (eof : Bool) :
    Reader.fgets ⟨lineText ai ++ 10 :: rest, position, eof⟩ (manifestMaxLine + 1) =
      (some (lineText ai ++ [10]), ⟨rest, position + ((lineText ai).length + 1), eof⟩) :=
  Reader.fgets_line (not_mem_lineText (by decide)) (Nat.lt_succ_of_le (fits_iff.mp fits)) rest position eof

theorem cString_line (ai : AofInfo) : cString (lineText ai ++ [10]) = lineText ai ++ [10] := by
  apply cString_of_terminated
  intro member
  rcases mem_append.mp member with inside | last
  · exact not_mem_lineText (by decide) inside
  · exact absurd (mem_singleton.mp last) (by decide)

theorem loadManifestLoop_line (fits : Fits ai) (fuel : Nat) (rest : Aof.Sds) (position : Nat) (eof : Bool)
    (linenum : Nat) (am : AofManifest) (maxseq : Int) :
    loadManifestLoop (fuel + 1) ⟨lineText ai ++ 10 :: rest, position, eof⟩ linenum am maxseq = (do
      let parsed ← parseLine (lineText ai)
      let (am, maxseq) ← addInfo am maxseq parsed
      loadManifestLoop fuel ⟨rest, position + ((lineText ai).length + 1), eof⟩ (linenum + 1) am maxseq) := by
  rw [loadManifestLoop, fgets_linesOf fits]
  dsimp only
  have first : charAt (lineText ai ++ [10]) 0 ≠ 35 := by
    rw [show charAt (lineText ai ++ [10]) 0 = 102 from rfl]
    decide
  rw [if_neg first, cString_line, if_neg (by simp), sdstrim_lineText]

theorem loadManifestLoop_end (fuel position : Nat) (eof : Bool) (linenum : Nat) (am : AofManifest) (maxseq : Int) :
    loadManifestLoop (fuel + 1) ⟨[], position, eof⟩ linenum am maxseq =
      if linenum = 0 then .error .empty else .ok am := rfl

theorem loadManifestLoop_entries (readable : ∀ ai ∈ infos, Readable ai) (enough : infos.length < fuel)
    (position : Nat) (eof : Bool) (linenum : Nat) (am : AofManifest) (maxseq : Int) :
    loadManifestLoop fuel ⟨linesOf infos, position, eof⟩ linenum am maxseq = (do
      let result ← infos.foldlM addEntry (am, maxseq)
      if linenum + infos.length = 0 then .error .empty else .ok result.1) := by
  induction infos generalizing fuel position linenum am maxseq with
  | nil =>
    obtain ⟨fuel, rfl⟩ := Nat.exists_eq_succ_of_ne_zero (Nat.ne_of_gt enough)
    exact loadManifestLoop_end fuel position eof linenum am maxseq
  | cons ai infos ih =>
    obtain ⟨fuel, rfl⟩ := Nat.exists_eq_succ_of_ne_zero (Nat.ne_of_gt (Nat.zero_lt_of_lt enough))
    obtain ⟨fine, splittable, fits⟩ := readable ai mem_cons_self
    rw [linesOf_cons, loadManifestLoop_line fits, parseLine_lineText fine splittable, ok_bind, foldlM_cons, addEntry]
    cases added : addInfo am maxseq (ai.fileName, ai.fileSeq, ai.fileType.char) with
    | error error => rfl
    | ok result =>
      rw [ok_bind, ok_bind]
      dsimp only
      rw [ih (forall_mem_cons.mp readable).2 (by simpa using enough)]
      have same : linenum + 1 + infos.length = linenum + (ai :: infos).length := by
        rw [length_cons]
        omega
      rw [same]

theorem length_le_linesOf (infos : List AofInfo) : infos.length ≤ (linesOf infos).length := by
  induction infos with
  | nil => exact Nat.zero_le _
  | cons ai infos ih =>
    rw [linesOf_cons, length_append, length_cons, length_cons]
    omega

section Add
variable (am : AofManifest) (maxseq : Int)

theorem foldlM_base {base : Option AofInfo} (typed : ∀ ai ∈ base, ai.fileType = .base) :
    base.toList.foldlM addEntry (aofManifestCreate, maxseq) = .ok ({ aofManifestCreate with
      baseAofInfo := base
      currBaseFileSeq := (base.map AofInfo.fileSeq).getD 0 }, maxseq) := by
  cases base with
  | none => rfl
  | some ai =>
    have type := typed ai rfl
    obtain ⟨name, seq, fileType⟩ := ai
    subst type
    rfl

theorem foldlM_history (typed : ∀ ai ∈ infos, ai.fileType = .hist) : infos.foldlM addEntry (am, maxseq) =
      .ok ({ am with historyAofList := am.historyAofList ++ infos }, maxseq) := by
  induction infos generalizing am with
  | nil =>
    rw [append_nil]
    rfl
  | cons ai infos ih =>
    have type := typed ai mem_cons_self
    have added : addEntry (am, maxseq) ai =
        .ok ({ am with historyAofList := am.historyAofList ++ [ai] }, maxseq) := by
      obtain ⟨name, seq, fileType⟩ := ai
      subst type
      rfl
    rw [foldlM_cons, added, ok_bind, ih _ (forall_mem_cons.mp typed).2]
    simp

theorem foldlM_incr (typed : ∀ ai ∈ infos, ai.fileType = .incr)
    (increasing : (infos.map AofInfo.fileSeq).Pairwise (· < ·)) (above : ∀ ai ∈ infos, maxseq < ai.fileSeq) :
    ∃ last, infos.foldlM addEntry (am, maxseq) = .ok ({ am with
          incrAofList := am.incrAofList ++ infos
          currIncrFileSeq := (infos.getLast?.map AofInfo.fileSeq).getD am.currIncrFileSeq }, last) := by
  induction infos generalizing am maxseq with
  | nil =>
    refine ⟨maxseq, ?_⟩
    rw [append_nil]
    rfl
  | cons ai infos ih =>
    have type := typed ai mem_cons_self
    have added : addEntry (am, maxseq) ai = .ok ({ am with
        incrAofList := am.incrAofList ++ [ai]
        currIncrFileSeq := ai.fileSeq }, ai.fileSeq) := by
      have larger := above ai mem_cons_self
      obtain ⟨name, seq, fileType⟩ := ai
      subst type
      dsimp only [addEntry, addInfo]
      rw [if_neg (show AofFileType.incr.char ≠ AofFileType.base.char by decide),
        if_neg (show AofFileType.incr.char ≠ AofFileType.hist.char by decide), if_pos rfl,
        if_neg (not_le.mpr larger)]
    rw [map_cons, pairwise_cons] at increasing
    obtain ⟨last, result⟩ := ih { am with
        incrAofList := am.incrAofList ++ [ai]
        currIncrFileSeq := ai.fileSeq } ai.fileSeq (forall_mem_cons.mp typed).2
      increasing.2 (fun other member => increasing.1 _ (mem_map_of_mem member))
    refine ⟨last, ?_⟩
    rw [foldlM_cons, added, ok_bind, result, append_assoc]
    cases infos with
    | nil => rfl
    | cons next infos =>
      simp [getLast?_eq_some_getLast]
end Add

/-- The entries of a manifest have the types of their lists and numbers that the loader accepts. -/
structure Listed (am : AofManifest) : Prop where
  base : ∀ ai ∈ am.baseAofInfo, ai.fileType = .base ∧ ai.fileSeq = am.currBaseFileSeq
  history : ∀ ai ∈ am.historyAofList, ai.fileType = .hist
  incr : ∀ ai ∈ am.incrAofList, ai.fileType = .incr
  increasing : (am.incrAofList.map AofInfo.fileSeq).Pairwise (· < ·)
  last : ∀ ai ∈ am.incrAofList.getLast?, ai.fileSeq = am.currIncrFileSeq
  positive : ∀ ai ∈ am.incrAofList, 0 < ai.fileSeq

/-- The file is read back as the same manifest. -/
def ReadsBack (am : AofManifest) (file : Aof.Sds) : Prop :=
  ∃ loaded, aofLoadManifestFromFile file = .ok loaded ∧ loaded.baseAofInfo = am.baseAofInfo ∧
    loaded.historyAofList = am.historyAofList ∧ loaded.incrAofList = am.incrAofList ∧
    (am.baseAofInfo ≠ none → loaded.currBaseFileSeq = am.currBaseFileSeq) ∧
    (am.incrAofList ≠ [] → loaded.currIncrFileSeq = am.currIncrFileSeq)

/-- What the loader makes of a manifest: the counters are known from the lines only. -/
def reloaded (am : AofManifest) : AofManifest :=
  { am with
    currBaseFileSeq := if am.baseAofInfo = none then 0 else am.currBaseFileSeq
    currIncrFileSeq := if am.incrAofList = [] then 0 else am.currIncrFileSeq
    dirty := false }

theorem reloaded_base {am : AofManifest} (listed : Listed am) :
    (am.baseAofInfo.map AofInfo.fileSeq).getD 0 = (reloaded am).currBaseFileSeq := by
  rw [reloaded]
  cases isBase : am.baseAofInfo with
  | none => rfl
  | some ai =>
    exact (listed.base ai isBase).2

theorem reloaded_incr {am : AofManifest} (listed : Listed am) :
    (am.incrAofList.getLast?.map AofInfo.fileSeq).getD 0 = (reloaded am).currIncrFileSeq := by
  rw [reloaded]
  cases final : am.incrAofList.getLast? with
  | none =>
    rw [if_pos (getLast?_eq_none_iff.mp final)]
    rfl
  | some ai =>
    have some : am.incrAofList ≠ [] := by
      intro empty
      rw [empty] at final
      cases final
    rw [if_neg some]
    exact listed.last ai final

theorem aofLoadManifestFromFile_written {am : AofManifest} (listed : Listed am) (some : entries am ≠ [])
    (readable : ∀ ai ∈ entries am, Readable ai) :
    aofLoadManifestFromFile (getAofManifestAsString am) = .ok (reloaded am) := by
  have length := length_le_linesOf (entries am)
  have typed : ∀ ai ∈ am.baseAofInfo, ai.fileType = .base := fun ai member => (listed.base ai member).1
  obtain ⟨last, result⟩ := foldlM_incr { aofManifestCreate with
      baseAofInfo := am.baseAofInfo
      currBaseFileSeq := (am.baseAofInfo.map AofInfo.fileSeq).getD 0
      historyAofList := aofManifestCreate.historyAofList ++ am.historyAofList } 0 listed.incr listed.increasing
    listed.positive
  have folded : (entries am).foldlM addEntry (aofManifestCreate, 0) = .ok (reloaded am, last) := by
    rw [entries, foldlM_append, foldlM_append, foldlM_base 0 typed, ok_bind,
      foldlM_history _ _ listed.history, ok_bind, result]
    have base := reloaded_base listed
    have incr := reloaded_incr listed
    rw [reloaded] at base incr ⊢
    dsimp only at base incr
    rw [base]
    rw [← incr]
    rfl
  rw [getAofManifestAsString_eq, ← linesOf, aofLoadManifestFromFile, loadManifestLoop_entries readable (by omega),
    folded, ok_bind, if_neg (by simpa using some)]

theorem readsBack_of_readable {am : AofManifest} (listed : Listed am) (some : entries am ≠ [])
    (readable : ∀ ai ∈ entries am, Readable ai) : ReadsBack am (getAofManifestAsString am) := by
  refine ⟨reloaded am, aofLoadManifestFromFile_written listed some readable, rfl, rfl, rfl, fun based => ?_,
    fun some => ?_⟩
  · rw [reloaded, if_neg based]
  · rw [reloaded, if_neg some]

theorem loadManifestLoop_long (long : ¬Fits ai) (fuel : Nat) (rest : Aof.Sds) (position : Nat) (eof : Bool)
    (linenum : Nat) (am : AofManifest) (maxseq : Int) :
    loadManifestLoop (fuel + 1) ⟨lineText ai ++ 10 :: rest, position, eof⟩ linenum am maxseq = .error .tooLongLine := by
  have noNewline : 10 ∉ lineText ai := not_mem_lineText (by decide)
  have enough : manifestMaxLine ≤ (lineText ai).length := Nat.le_of_lt_succ (not_le.mp (mt fits_iff.mpr long))
  have read : Reader.fgets ⟨lineText ai ++ 10 :: rest, position, eof⟩ (manifestMaxLine + 1) =
      (some ((lineText ai).take manifestMaxLine), ⟨(lineText ai).drop manifestMaxLine ++ 10 :: rest,
        position + ((lineText ai).take manifestMaxLine).length, eof⟩) := by
    rw [Reader.fgets, Nat.add_sub_cancel, lineLoop_long noNewline enough]
    dsimp only
    rw [Bool.or_false, if_neg (show (lineText ai).take manifestMaxLine ≠ [] from cons_ne_nil _ _)]
  rw [loadManifestLoop, read]
  dsimp only
  rw [if_neg (show charAt ((lineText ai).take manifestMaxLine) 0 ≠ 35 from (show (102 : UInt8) ≠ 35 by decide)),
    if_pos]
  intro inside
  exact noNewline (mem_of_mem_take ((List.takeWhile_prefix _).subset inside))

theorem loadManifestLoop_line_ok {rest : Aof.Sds} {maxseq : Int}
    (finished : loadManifestLoop fuel ⟨lineText ai ++ 10 :: rest, position, eof⟩ linenum am maxseq = .ok loaded) :
    Fits ai ∧ ∃ fuel' position' parsed am' maxseq', parseLine (lineText ai) = .ok parsed ∧
      addInfo am maxseq parsed = .ok (am', maxseq') ∧
      loadManifestLoop fuel' ⟨rest, position', eof⟩ (linenum + 1) am' maxseq' = .ok loaded := by
  cases fuel with
  | zero => cases finished
  | succ fuel =>
    by_cases fits : Fits ai
    · rw [loadManifestLoop_line fits] at finished
      obtain ⟨parsed, isParsed, finished⟩ := exists_of_bind_eq_ok finished
      obtain ⟨⟨am', maxseq'⟩, isAdded, finished⟩ := exists_of_bind_eq_ok finished
      exact ⟨fits, fuel, _, parsed, am', maxseq', isParsed, isAdded, finished⟩
    · rw [loadManifestLoop_long fits] at finished
      cases finished

theorem lines_of_loaded {maxseq : Int}
    (finished : loadManifestLoop fuel ⟨linesOf infos, position, eof⟩ linenum am maxseq = .ok loaded) :
    ∀ ai ∈ infos, Fits ai ∧ ∃ parsed, parseLine (lineText ai) = .ok parsed := by
  induction infos generalizing fuel position linenum am maxseq with
  | nil => exact forall_mem_nil _
  | cons ai infos ih =>
    rw [linesOf_cons] at finished
    obtain ⟨fits, fuel', position', parsed, am', maxseq', isParsed, -, rest⟩ := loadManifestLoop_line_ok finished
    intro other member
    rcases mem_cons.mp member with rfl | later
    · exact ⟨fits, parsed, isParsed⟩
    · exact ih rest other later

theorem splittable_of_parsed (last : ai.fileName.getLast? ≠ some 39) (finished : parseLine (lineText ai) = .ok parsed) :
    Splittable ai.fileName := by
  by_contra unsplittable
  obtain ⟨unquoted, apostrophe⟩ : sdsneedsrepr ai.fileName = false ∧ 39 ∈ ai.fileName := by
    simpa [Splittable] using unsplittable
  have inner : ∀ char ∈ ai.fileName, char ≠ 92 ∧ char ≠ 34 ∧ char ≠ 0 ∧ isspace char = false := by
    intro char member
    have single := any_eq_false.mp unquoted char member
    simp only [decide_eq_true_eq, not_or] at single
    obtain ⟨noEscape, noQuote, -, -, -, -, -, print, noSpace⟩ := single
    refine ⟨noEscape, noQuote, ?_, by simpa using noSpace⟩
    rintro rfl
    exact print (by decide)
  have digits : ∀ char ∈ signedDecimal ai.fileSeq, char ≠ 39 ∧ char ≠ 92 := by
    intro char member
    have digit : ∀ number, char ∈ decimal number → char ≠ 39 ∧ char ≠ 92 := by
      intro number inside
      have bounds := (isDigit_of_mem_decimal inside).bounds
      simp only [ne_eq, ← UInt8.toNat_inj, UInt8.reduceToNat]
      omega
    rw [signedDecimal] at member
    split_ifs at member
    · rcases mem_cons.mp member with rfl | inside
      · decide
      · exact digit _ inside
    · exact digit _ member
  have rest : ∀ char ∈ ascii "seq" ++ 32 :: (signedDecimal ai.fileSeq ++ 32 :: (ascii "type" ++ 32 ::
      [ai.fileType.char])), char ≠ 39 ∧ char ≠ 92 := by
    have first : ∀ char ∈ ascii "seq", char ≠ 39 ∧ char ≠ 92 := all_iff_forall_prop.1 (by decide)
    have second : ∀ char ∈ 32 :: (ascii "type" ++ 32 :: [ai.fileType.char]), char ≠ 39 ∧ char ≠ 92 := by
      cases ai.fileType <;> exact all_iff_forall_prop.1 (by decide)
    intro char member
    rw [mem_append, mem_cons, mem_append] at member
    rcases member with key | rfl | seq | key
    · exact first char key
    · decide
    · exact digits char seq
    · exact second char key
  have failed : sdssplitargs (lineText ai) = none := by
    obtain ⟨char, word, same⟩ := exists_cons_of_ne_nil (ne_nil_of_mem apostrophe)
    have read := getToken_none_inside inner apostrophe last (fun member => (rest 39 member).1 rfl)
      (fun member => (rest 92 member).2 rfl) []
    obtain ⟨-, -, inside, noSpace⟩ := inner char (by rw [same]; exact mem_cons_self)
    rw [sdssplitargs, lineText, writtenName, unquoted, show ascii "file" = 102 :: [105, 108, 101] from rfl,
      splitLoop_word (all_iff_forall_prop.1 (by decide)) (by decide), if_neg Bool.false_ne_true]
    rw [same, cons_append] at read ⊢
    rw [splitLoop, if_neg inside, if_neg (by rw [noSpace]; exact Bool.false_ne_true), read]
  rw [parseLine, failed] at finished
  cases finished

theorem parseFields_apostrophe {argv : List Aof.Sds} {ai parsed : ParsedInfo} (clean : ∀ arg ∈ argv, 39 ∉ arg)
    (start : ∀ name ∈ ai.fileName, 39 ∉ name) (finished : parseFields argv ai = .ok parsed) :
    ∀ name ∈ parsed.fileName, 39 ∉ name := by
  fun_induction parseFields argv ai with
  | case1 key value rest ai isFile path ih =>
    apply ih (fun arg member => clean arg (by simp [member])) _ finished
    rintro name ⟨⟩ inside
    exact clean value (by simp) ((List.takeWhile_prefix _).subset inside)
  | case2 key value rest ai isFile path => cases finished
  | case3 key value rest ai noFile isSeq ih => exact ih (fun arg member => clean arg (by simp [member])) start finished
  | case4 key value rest ai noFile noSeq isType ih =>
    exact ih (fun arg member => clean arg (by simp [member])) start finished
  | case5 key value rest ai noFile noSeq noType ih =>
    exact ih (fun arg member => clean arg (by simp [member])) start finished
  | case6 argv ai => cases finished; exact start

theorem parseLine_apostrophe {line : Aof.Sds} (noQuote : 34 ∉ line) (noEscape : 92 ∉ line)
    (finished : parseLine line = .ok parsed) : 39 ∉ parsed.1 := by
  rw [parseLine] at finished
  cases split : sdssplitargs line with
  | none => simp [split] at finished
  | some argv =>
    have clean := splitLoop_apostrophe noQuote noEscape (forall_mem_nil _) split
    rw [split] at finished
    dsimp only at finished
    split_ifs at finished
    obtain ⟨ai, isParsed, finished⟩ := exists_of_bind_eq_ok finished
    have named := parseFields_apostrophe clean (fun _ none => by cases none) isParsed
    cases name : ai.fileName with
    | none => simp [name] at finished
    | some fileName =>
      rw [name] at finished
      split_ifs at finished
      cases finished
      exact named fileName name

theorem addInfo_apostrophe {am am' : AofManifest} {maxseq maxseq' : Int} (clean : ∀ ai ∈ entries am, 39 ∉ ai.fileName)
    (named : 39 ∉ parsed.1) (added : addInfo am maxseq parsed = .ok (am', maxseq')) :
    ∀ ai ∈ entries am', 39 ∉ ai.fileName := by
  have before : (∀ ai ∈ am.baseAofInfo, 39 ∉ ai.fileName) ∧ (∀ ai ∈ am.historyAofList, 39 ∉ ai.fileName) ∧
      ∀ ai ∈ am.incrAofList, 39 ∉ ai.fileName := by
    simp only [entries, mem_append, or_imp, forall_and, Option.mem_toList] at clean
    exact ⟨clean.1.1, clean.1.2, clean.2⟩
  obtain ⟨base, history, incr⟩ := before
  rw [addInfo] at added
  split_ifs at added
  all_goals
    cases added
    simp only [entries, mem_append, or_imp, forall_and, Option.mem_toList, Option.some.injEq,
      mem_singleton, forall_eq, forall_eq']
  · exact ⟨⟨named, history⟩, incr⟩
  · exact ⟨⟨base, history, named⟩, incr⟩
  · exact ⟨⟨base, history⟩, incr, named⟩

/-- Lines without double quotes and escapes give names without apostrophes. -/
theorem apostrophe_of_loaded (noQuote : ∀ ai ∈ infos, 34 ∉ lineText ai) (noEscape : ∀ ai ∈ infos, 92 ∉ lineText ai)
    {maxseq : Int} (clean : ∀ ai ∈ entries am, 39 ∉ ai.fileName)
    (finished : loadManifestLoop fuel ⟨linesOf infos, position, eof⟩ linenum am maxseq = .ok loaded) :
    ∀ ai ∈ entries loaded, 39 ∉ ai.fileName := by
  induction infos generalizing fuel position linenum am maxseq with
  | nil =>
    cases fuel with
    | zero => cases finished
    | succ fuel =>
      rw [show linesOf [] = [] from rfl, loadManifestLoop_end] at finished
      split_ifs at finished
      cases finished
      exact clean
  | cons ai infos ih =>
    rw [linesOf_cons] at finished
    obtain ⟨-, fuel', position', parsed, am', maxseq', isParsed, isAdded, rest⟩ := loadManifestLoop_line_ok finished
    have named := parseLine_apostrophe (noQuote ai mem_cons_self) (noEscape ai mem_cons_self) isParsed
    exact ih (forall_mem_cons.mp noQuote).2
      (forall_mem_cons.mp noEscape).2
      (addInfo_apostrophe clean named isAdded) rest

end Redis.Aof

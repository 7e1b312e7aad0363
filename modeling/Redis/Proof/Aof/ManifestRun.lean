import Redis.Foundation.Loop
import Redis.Proof.Aof.ManifestLoad

namespace Redis.Aof
open Foundation SplitArgs List
variable {am : AofManifest} {char : UInt8} {store : ManifestStore} (filename : AofFilename)

/-- The characters that the server appends to the configured name. -/
def SuffixChar (char : UInt8) : Prop := char = 46 ∨ (48 ≤ char ∧ char ≤ 57) ∨ (97 ≤ char ∧ char ≤ 122)

instance (char : UInt8) : Decidable (SuffixChar char) := inferInstanceAs (Decidable (_ ∨ _))

/-- The name of a file that the server has created or taken over. -/
def Derived (filename : AofFilename) (name : Aof.Sds) : Prop :=
  ∃ suffix, name = filename.name ++ suffix ∧ ∀ char ∈ suffix, SuffixChar char

/-- The writer and the loader treat a character of the suffix as it is. -/
theorem SuffixChar.plain (allowed : SuffixChar char) :
    char ≠ 0 ∧ char ≠ 39 ∧ char ≠ 47 ∧ char ≠ 92 ∧ char ≠ 34 ∧ isprint char = true ∧ isspace char = false := by
  simp only [SuffixChar, isprint, isspace, decide_eq_true_iff, decide_eq_false_iff_not, UInt8.le_iff_toNat_le, ne_eq,
    ← UInt8.toNat_inj, UInt8.reduceToNat] at allowed ⊢
  omega

theorem SuffixChar.unquoted (allowed : SuffixChar char) : sdsneedsrepr [char] = false := by
  obtain ⟨-, -, -, noEscape, noQuote, print, noSpace⟩ := allowed.plain
  have noControl : char ≠ 10 ∧ char ≠ 13 ∧ char ≠ 9 ∧ char ≠ 7 ∧ char ≠ 8 := by
    refine ⟨?_, ?_, ?_, ?_, ?_⟩ <;> rintro rfl <;> exact absurd print (by decide)
  simp [sdsneedsrepr, noEscape, noQuote, print, noSpace, noControl]

theorem sdsneedsrepr_append (first second : Aof.Sds) :
    sdsneedsrepr (first ++ second) = (sdsneedsrepr first || sdsneedsrepr second) := any_append

theorem sdsneedsrepr_suffix {suffix : Aof.Sds} (allowed : ∀ char ∈ suffix, SuffixChar char) :
    sdsneedsrepr suffix = false := by
  induction suffix with
  | nil => rfl
  | cons char suffix ih =>
    rw [← singleton_append, sdsneedsrepr_append, (allowed char mem_cons_self).unquoted,
      ih (forall_mem_cons.mp allowed).2]
    rfl

section Facts
variable {filename : AofFilename} {name : Aof.Sds} (derived : Derived filename name)

include derived
theorem Derived.needsrepr : sdsneedsrepr name = sdsneedsrepr filename.name := by
  obtain ⟨suffix, rfl, allowed⟩ := derived
  rw [sdsneedsrepr_append, sdsneedsrepr_suffix allowed, Bool.or_false]

theorem Derived.mem_iff (special : ¬SuffixChar char) : char ∈ name ↔ char ∈ filename.name := by
  obtain ⟨suffix, rfl, allowed⟩ := derived
  rw [mem_append]
  exact or_iff_left fun inside => special (allowed char inside)

theorem Derived.splittable_iff : Splittable name ↔ Splittable filename.name := by
  rw [Splittable, Splittable, derived.needsrepr, derived.mem_iff (by decide)]

theorem Derived.fine {fileSeq : Int} {fileType : AofFileType} (positive : 0 < fileSeq) (bounded : fileSeq < 2 ^ 63) :
    FineEntry ⟨name, fileSeq, fileType⟩ where
  named := by
    obtain ⟨suffix, rfl, -⟩ := derived
    have some := filename.valid
    simp only [isValidAOFfilename, decide_eq_true_iff] at some
    simp [some.1]
  terminated := fun inside => filename.terminated ((derived.mem_iff (by decide)).mp inside)
  path := by
    have valid := filename.valid
    simp only [isValidAOFfilename, pathIsBaseName, decide_eq_true_iff] at valid ⊢
    rw [derived.mem_iff (by decide), derived.mem_iff (by decide)]
    exact valid.2
  positive := positive
  bounded := bounded
end Facts

theorem derived_self : Derived filename filename.name := ⟨[], (append_nil _).symm, forall_mem_nil _⟩

theorem suffixChar_decimal {number : Nat} (member : char ∈ decimal number) : SuffixChar char :=
  .inr (.inl (isDigit_of_mem_decimal member))

theorem suffixChar_numbered {seq : Int} (positive : 0 ≤ seq) {ending : Aof.Sds}
    (allowed : ∀ char ∈ ending, SuffixChar char) :
    ∀ char ∈ ascii "." ++ signedDecimal seq ++ ending, SuffixChar char := by
  intro char member
  rw [signedDecimal, if_neg (by omega), mem_append, mem_append] at member
  rcases member with (dot | digit) | inside
  · exact .inl (mem_singleton.mp dot)
  · exact suffixChar_decimal digit
  · exact allowed char inside

theorem derived_baseFileName (aofUseRdbPreamble : Bool) {seq : Int} (positive : 0 ≤ seq) :
    Derived filename (baseFileName filename aofUseRdbPreamble seq) := by
  refine ⟨_, rfl, ?_⟩
  rw [append_assoc]
  apply suffixChar_numbered positive
  cases aofUseRdbPreamble <;> exact all_iff_forall_prop.1 (by decide)

theorem derived_incrFileName {seq : Int} (positive : 0 ≤ seq) : Derived filename (incrFileName filename seq) := by
  refine ⟨_, rfl, ?_⟩
  rw [append_assoc]
  apply suffixChar_numbered positive
  exact all_iff_forall_prop.1 (by decide)

section Kept
/-- An entry that the server has made. -/
structure Made (filename : AofFilename) (type : AofFileType) (ai : AofInfo) : Prop where
  derived : Derived filename ai.fileName
  typed : ai.fileType = type
  positive : 0 < ai.fileSeq
  bounded : ai.fileSeq < 2 ^ 63

/-- What holds of the manifest of a running server. -/
structure Kept (filename : AofFilename) (am : AofManifest) : Prop where
  base : ∀ ai ∈ am.baseAofInfo, Made filename .base ai ∧ ai.fileSeq = am.currBaseFileSeq
  history : ∀ ai ∈ am.historyAofList, Made filename .hist ai
  incr : ∀ ai ∈ am.incrAofList, Made filename .incr ai ∧ ai.fileSeq ≤ am.currIncrFileSeq
  increasing : (am.incrAofList.map AofInfo.fileSeq).Pairwise (· < ·)
  last : ∀ ai ∈ am.incrAofList.getLast?, ai.fileSeq = am.currIncrFileSeq
  counters : 0 ≤ am.currBaseFileSeq ∧ 0 ≤ am.currIncrFileSeq

variable {filename : AofFilename} {am : AofManifest}

theorem kept_create : Kept filename aofManifestCreate := by
  constructor
  · exact fun _ none => by cases none
  · exact forall_mem_nil _
  · exact forall_mem_nil _
  · exact List.Pairwise.nil
  · exact fun _ none => by cases none
  · exact ⟨le_rfl, le_rfl⟩

theorem Made.fine {type : AofFileType} {ai : AofInfo} (made : Made filename type ai) : FineEntry ai :=
  made.derived.fine made.positive made.bounded

theorem Kept.made (kept : Kept filename am) {ai : AofInfo} (member : ai ∈ entries am) :
    ∃ type, Made filename type ai := by
  rw [entries, mem_append, mem_append, Option.mem_toList] at member
  rcases member with (base | history) | incr
  · exact ⟨_, (kept.base ai base).1⟩
  · exact ⟨_, kept.history ai history⟩
  · exact ⟨_, (kept.incr ai incr).1⟩

theorem Kept.listed (kept : Kept filename am) : Listed am where
  base ai member := ⟨(kept.base ai member).1.typed, (kept.base ai member).2⟩
  history ai member := (kept.history ai member).typed
  incr ai member := (kept.incr ai member).1.typed
  increasing := kept.increasing
  last := kept.last
  positive ai member := (kept.incr ai member).1.positive

/-- The name can be split and every line fits. -/
def Loadable (filename : AofFilename) (am : AofManifest) : Prop :=
  Splittable filename.name ∧ ∀ ai ∈ entries am, Fits ai

/-- The written manifest is read back exactly if its lines can be loaded. -/
theorem readsBack_iff (kept : Kept filename am) (some : entries am ≠ []) :
    ReadsBack am (getAofManifestAsString am) ↔ Loadable filename am := by
  constructor
  · rintro ⟨loaded, finished, base, history, incr, -, -⟩
    rw [getAofManifestAsString_eq] at finished
    refine ⟨?_, fun ai member => (lines_of_loaded finished ai member).1⟩
    by_contra unsplittable
    obtain ⟨unquoted, apostrophe⟩ : sdsneedsrepr filename.name = false ∧ 39 ∈ filename.name := by
      simpa [Splittable] using unsplittable
    have plain : ∀ ai ∈ entries am, 34 ∉ lineText ai ∧ 92 ∉ lineText ai := by
      intro ai member
      obtain ⟨type, made⟩ := kept.made member
      exact unquoted_lineText (made.derived.needsrepr.trans unquoted)
    have clean := apostrophe_of_loaded (fun ai member => (plain ai member).1) (fun ai member => (plain ai member).2)
      (forall_mem_nil _) finished
    have same : entries loaded = entries am := by rw [entries, entries, base, history, incr]
    obtain ⟨ai, member⟩ := exists_mem_of_ne_nil _ some
    obtain ⟨type, made⟩ := kept.made member
    exact clean ai (same ▸ member) ((made.derived.mem_iff (by decide)).mpr apostrophe)
  · rintro ⟨splittable, fits⟩
    refine readsBack_of_readable kept.listed some fun ai member => ?_
    obtain ⟨type, made⟩ := kept.made member
    exact ⟨made.fine, made.derived.splittable_iff.mpr splittable, fits ai member⟩
end Kept

section Update
variable {filename : AofFilename} {am : AofManifest}

/-- The only fault of an update is the overflow of a counter. -/
def Overflow (fault : Fault) : Prop := fault = .signedOverflow

theorem incrementSeq_outcome (seq : Int) :
    Outcome (incrementSeq seq) Overflow fun next => next = seq + 1 ∧ next < 2 ^ 63 := by
  rw [incrementSeq]
  split_ifs with full
  · rfl
  · exact ⟨rfl, by omega⟩

def toHistory (ai : AofInfo) : AofInfo := { ai with fileType := .hist }

def withNewBase (filename : AofFilename) (aofUseRdbPreamble : Bool) (am : AofManifest) : AofManifest :=
  { am with
    baseAofInfo := some ⟨baseFileName filename aofUseRdbPreamble (am.currBaseFileSeq + 1), am.currBaseFileSeq + 1, .base⟩
    historyAofList := am.baseAofInfo.toList.map toHistory ++ am.historyAofList
    currBaseFileSeq := am.currBaseFileSeq + 1
    dirty := true }

def withNewIncr (filename : AofFilename) (am : AofManifest) : AofManifest :=
  { am with
    incrAofList := am.incrAofList ++ [⟨incrFileName filename (am.currIncrFileSeq + 1), am.currIncrFileSeq + 1, .incr⟩]
    currIncrFileSeq := am.currIncrFileSeq + 1
    dirty := true }

/-- The manifest with its first incremental files in the history. -/
def withMoved (moved rest : List AofInfo) (am : AofManifest) : AofManifest :=
  { am with
    incrAofList := rest
    historyAofList := moved.map toHistory ++ am.historyAofList
    dirty := am.dirty || am.incrAofList ≠ [] }

theorem markBaseAsHistory_eq (am : AofManifest) : markBaseAsHistory am = do
    require .getNewBaseFileNameAndMarkPreAsHistory (∀ ai ∈ am.baseAofInfo, ai.fileType = .base)
    return { am with historyAofList := am.baseAofInfo.toList.map toHistory ++ am.historyAofList } := by
  obtain ⟨base, incrAofList, historyAofList, currBaseFileSeq, currIncrFileSeq, dirty⟩ := am
  cases base with
  | none => simp [markBaseAsHistory, require]
  | some ai => simp [markBaseAsHistory, toHistory]

theorem markRewrittenIncrAofAsHistory_eq (aofFdOpen : Bool) (am : AofManifest) :
    ∃ moved rest, am.incrAofList = moved ++ rest ∧ markRewrittenIncrAofAsHistory aofFdOpen am = do
      require .markRewrittenIncrAofAsHistory (∀ ai ∈ moved, ai.fileType = .incr)
      return withMoved moved rest am := by
  rw [markRewrittenIncrAofAsHistory]
  by_cases empty : am.incrAofList = []
  · refine ⟨[], [], empty, ?_⟩
    cases am
    simp_all [withMoved, require]
  · rw [if_neg empty]
    dsimp only
    have front : (if aofFdOpen then am.incrAofList.dropLast else am.incrAofList) <+: am.incrAofList := by
      split_ifs
      · exact dropLast_prefix _
      · exact prefix_rfl
    generalize (if aofFdOpen then am.incrAofList.dropLast else am.incrAofList) = moved at front ⊢
    obtain ⟨rest, whole⟩ := front
    refine ⟨moved, rest, whole.symm, ?_⟩
    rw [withMoved, ← whole, drop_left, whole]
    simp [empty]
    rfl

variable (kept : Kept filename am)
include kept
theorem getNewBaseFileNameAndMarkPreAsHistory_outcome (aofUseRdbPreamble : Bool) :
    Outcome (getNewBaseFileNameAndMarkPreAsHistory filename aofUseRdbPreamble am) Overflow fun am' =>
      am' = withNewBase filename aofUseRdbPreamble am ∧ Kept filename am' := by
  rw [getNewBaseFileNameAndMarkPreAsHistory, markBaseAsHistory_eq,
    require_of fun ai member => (kept.base ai member).1.typed]
  apply (incrementSeq_outcome _).bind
  rintro seq ⟨rfl, bounded⟩
  have positive : 0 < am.currBaseFileSeq + 1 := Int.lt_add_one_of_le kept.counters.1
  refine ⟨rfl, { kept with base := ?_, history := ?_, counters := ⟨positive.le, kept.counters.2⟩ }⟩
  · rintro ai ⟨⟩
    exact ⟨⟨derived_baseFileName filename aofUseRdbPreamble positive.le, rfl, positive, bounded⟩, rfl⟩
  · intro ai member
    rcases mem_append.mp member with new | old
    · obtain ⟨base, isBase, rfl⟩ := mem_map.mp new
      obtain ⟨made, -⟩ := kept.base base (Option.mem_toList.mp isBase)
      exact ⟨made.derived, rfl, made.positive, made.bounded⟩
    · exact kept.history ai old

theorem getNewIncrAofName_outcome : Outcome (getNewIncrAofName filename am) Overflow fun am' =>
      am' = withNewIncr filename am ∧ Kept filename am' := by
  rw [getNewIncrAofName]
  apply (incrementSeq_outcome _).bind
  rintro seq ⟨rfl, bounded⟩
  have positive : 0 < am.currIncrFileSeq + 1 := Int.lt_add_one_of_le kept.counters.2
  refine ⟨rfl, { kept with
    incr := ?_
    increasing := ?_
    last := ?_
    counters := ⟨kept.counters.1, positive.le⟩ }⟩
  · intro ai member
    rcases mem_append.mp member with old | new
    · obtain ⟨made, below⟩ := kept.incr ai old
      exact ⟨made, below.trans (Int.le_add_one le_rfl)⟩
    · rw [mem_singleton.mp new]
      exact ⟨⟨derived_incrFileName filename positive.le, rfl, positive, bounded⟩, le_rfl⟩
  · rw [map_append, pairwise_append]
    refine ⟨kept.increasing, pairwise_singleton _ _, ?_⟩
    intro first member second last
    obtain ⟨ai, inside, rfl⟩ := mem_map.mp member
    have below := (kept.incr ai inside).2
    simp only [map_cons, map_nil, mem_singleton] at last
    omega
  · intro ai final
    rw [getLast?_concat] at final
    cases final
    rfl

theorem getLastIncrAofName_outcome : Outcome (getLastIncrAofName filename am) Overflow fun am' =>
      Kept filename am' ∧ am'.baseAofInfo = am.baseAofInfo ∧ am'.historyAofList = am.historyAofList ∧
        am'.incrAofList ≠ [] ∧ (am'.dirty = true ∨ am' = am) := by
  rw [getLastIncrAofName]
  split_ifs with empty
  · apply (getNewIncrAofName_outcome kept).mono
    rintro _ ⟨rfl, kept'⟩
    exact ⟨kept', rfl, rfl, by simp [withNewIncr], .inl rfl⟩
  · exact ⟨kept, rfl, rfl, empty, .inr rfl⟩

theorem Kept.moved {moved rest : List AofInfo} (split : am.incrAofList = moved ++ rest) :
    Kept filename (withMoved moved rest am) := by
  refine { kept with history := ?_, incr := ?_, increasing := ?_, last := ?_ }
  · intro ai member
    rcases mem_append.mp member with new | old
    · obtain ⟨original, source, rfl⟩ := mem_map.mp new
      obtain ⟨made, -⟩ := kept.incr original (split ▸ mem_append_left _ source)
      exact ⟨made.derived, rfl, made.positive, made.bounded⟩
    · exact kept.history ai old
  · exact fun ai member => kept.incr ai (split ▸ mem_append_right _ member)
  · have increasing := kept.increasing
    rw [split, map_append, pairwise_append] at increasing
    exact increasing.2.1
  · intro ai final
    apply kept.last
    rw [split, getLast?_append]
    rw [show rest.getLast? = some ai from final]
    rfl

theorem Kept.markRewritten (aofFdOpen : Bool) : ∃ moved rest, am.incrAofList = moved ++ rest ∧
    markRewrittenIncrAofAsHistory aofFdOpen am = .ok (withMoved moved rest am) := by
  obtain ⟨moved, rest, split, marked⟩ := markRewrittenIncrAofAsHistory_eq aofFdOpen am
  refine ⟨moved, rest, split, marked.trans ?_⟩
  rw [require_of fun ai member => (kept.incr ai (split ▸ mem_append_left _ member)).1.typed]
  rfl

theorem aofDelHistoryFiles_outcome (aofDisableAutoGc : Bool) :
    Outcome (aofDelHistoryFiles aofDisableAutoGc am) Overflow fun am' =>
      Kept filename am' ∧ am'.baseAofInfo = am.baseAofInfo ∧
        ((am'.dirty = true ∧ am.historyAofList ≠ [] ∧ am'.historyAofList = []) ∨ am' = am) := by
  rw [aofDelHistoryFiles]
  split_ifs with idle
  · exact ⟨kept, rfl, .inr rfl⟩
  · rw [require_of fun ai member => (kept.history ai member).typed]
    exact ⟨{ kept with history := forall_mem_nil _ }, rfl, .inl ⟨rfl, fun empty => idle (.inr empty), rfl⟩⟩
end Update

section Store
variable {filename : AofFilename}

/-- A running server with nothing written yet, or with its manifest in the file. -/
inductive StoreKept (filename : AofFilename) : ManifestStore → Prop where
  | stopped : StoreKept filename ⟨none, none⟩
  | fresh {am : AofManifest} (kept : Kept filename am) (clean : am.dirty = false) (nothing : entries am = []) :
      StoreKept filename ⟨some am, none⟩
  | written {am : AofManifest} (kept : Kept filename am) (clean : am.dirty = false) (nonempty : entries am ≠ [])
      (based : am.baseAofInfo = none → am.historyAofList = []) :
      StoreKept filename ⟨some am, some (getAofManifestAsString am)⟩

theorem StoreKept.running (kept : StoreKept filename store) (running : store.manifest = some am) :
    Kept filename am ∧ am.dirty = false ∧ (am.baseAofInfo = none → am.historyAofList = []) := by
  cases kept with
  | stopped => cases running
  | fresh kept clean nothing =>
    cases running
    refine ⟨kept, clean, fun _ => ?_⟩
    rw [entries, append_eq_nil_iff, append_eq_nil_iff] at nothing
    exact nothing.1.2
  | written kept clean nonempty based =>
    cases running
    exact ⟨kept, clean, based⟩

theorem entries_ne_nil_of_base (based : am.baseAofInfo ≠ none) : entries am ≠ [] := by
  obtain ⟨ai, isBase⟩ := Option.ne_none_iff_exists'.mp based
  simp [entries, isBase]

theorem entries_ne_nil_of_incr (nonempty : am.incrAofList ≠ []) : entries am ≠ [] := by
  simp [entries, nonempty]

theorem persistAofManifest_kept (kept : Kept filename am) (nonempty : entries am ≠ [])
    (based : am.baseAofInfo = none → am.historyAofList = []) (dirty : am.dirty = true) :
    StoreKept filename (persistAofManifest store am) := by
  rw [persistAofManifest, if_pos dirty]
  exact .written { kept with } rfl nonempty based

theorem persistAofManifest_idle {am am' : AofManifest} (before : StoreKept filename store)
    (running : store.manifest = some am) (clean : am.dirty = false) (kept : Kept filename am')
    (nonempty : am'.dirty = true → entries am' ≠ []) (based : am'.baseAofInfo = none → am'.historyAofList = [])
    (dirty : am'.dirty = true ∨ am' = am) : StoreKept filename (persistAofManifest store am') := by
  rcases dirty with dirty | rfl
  · exact persistAofManifest_kept kept (nonempty dirty) based dirty
  · rw [persistAofManifest, if_neg (by rw [clean]; exact Bool.false_ne_true), ← running]
    exact before

theorem forceBaseOnStart_outcome (kept : Kept filename am) (based : am.baseAofInfo = none → am.historyAofList = [])
    (aofUseRdbPreamble : Bool) :
    Outcome (forceBaseOnStart filename aofUseRdbPreamble am) Overflow fun am' => Kept filename am' ∧
      (am'.baseAofInfo = none → am'.historyAofList = []) ∧ (am'.dirty = true ∨ am' = am) := by
  rw [forceBaseOnStart]
  split_ifs
  · apply (getNewBaseFileNameAndMarkPreAsHistory_outcome kept aofUseRdbPreamble).mono
    rintro _ ⟨rfl, kept'⟩
    exact ⟨kept', fun none => (by cases none), .inl rfl⟩
  · exact ⟨kept, based, .inr rfl⟩

theorem openedOnStart_outcome (kept : Kept filename am) (based : am.baseAofInfo = none → am.historyAofList = [])
    (aofUseRdbPreamble : Bool) :
    Outcome (openedOnStart filename aofUseRdbPreamble am) Overflow fun am' => Kept filename am' ∧
      entries am' ≠ [] ∧ (am'.baseAofInfo = none → am'.historyAofList = []) ∧ (am'.dirty = true ∨ am' = am) := by
  rw [openedOnStart]
  apply (forceBaseOnStart_outcome kept based aofUseRdbPreamble).bind
  rintro am' ⟨kept', based', dirty⟩
  apply (getLastIncrAofName_outcome kept').mono
  rintro am'' ⟨kept'', base, history, nonempty, dirty'⟩
  refine ⟨kept'', entries_ne_nil_of_incr nonempty, fun none => ?_, ?_⟩
  · rw [history]
    exact based' (base.symm.trans none)
  · rcases dirty' with dirty' | rfl
    · exact .inl dirty'
    · exact dirty

theorem rewrittenManifest_outcome (kept : Kept filename am) (aofUseRdbPreamble waitRewrite aofFdOpen : Bool) :
    Outcome (rewrittenManifest filename aofUseRdbPreamble waitRewrite aofFdOpen am) Overflow fun am' =>
      Kept filename am' ∧ am'.baseAofInfo ≠ none ∧ am'.dirty = true := by
  rw [rewrittenManifest]
  apply (getNewBaseFileNameAndMarkPreAsHistory_outcome kept aofUseRdbPreamble).bind
  rintro _ ⟨rfl, kept₁⟩
  have second : Outcome (nameTempIncr filename waitRewrite (withNewBase filename aofUseRdbPreamble am)) Overflow fun am' =>
      Kept filename am' ∧ am'.baseAofInfo ≠ none ∧ am'.dirty = true := by
    rw [nameTempIncr]
    split_ifs
    · apply (getNewIncrAofName_outcome kept₁).mono
      rintro _ ⟨rfl, kept'⟩
      exact ⟨kept', Option.some_ne_none _, rfl⟩
    · exact ⟨kept₁, Option.some_ne_none _, rfl⟩
  apply second.bind
  rintro am₂ ⟨kept₂, based₂, dirty₂⟩
  obtain ⟨moved, rest, split, marked⟩ := kept₂.markRewritten aofFdOpen
  rw [marked]
  exact ⟨kept₂.moved split, based₂, by simp [withMoved, dirty₂]⟩

theorem persist_delHistory (before : StoreKept filename store) (running : store.manifest = some am)
    (aofDisableAutoGc : Bool) :
    Outcome (do return persistAofManifest store (← aofDelHistoryFiles aofDisableAutoGc am)) Overflow
      (StoreKept filename) := by
  obtain ⟨kept, clean, based⟩ := before.running running
  apply (aofDelHistoryFiles_outcome kept aofDisableAutoGc).bind
  rintro am' ⟨kept', base, ⟨dirty, history, empty⟩ | rfl⟩
  · refine persistAofManifest_kept kept' (entries_ne_nil_of_base fun none => ?_) (fun _ => empty) dirty
    exact history (based (base.symm.trans none))
  · exact persistAofManifest_idle before running clean kept (fun dirty => by rw [clean] at dirty; cases dirty) based
      (.inr rfl)

theorem updateManifest_kept (before : StoreKept filename store) (running : store.manifest = some am) (op : ManifestOp) :
    Outcome (updateManifest filename store am op) Overflow (StoreKept filename) := by
  obtain ⟨kept, clean, based⟩ := before.running running
  cases op with
  | aofLoadManifestFromDisk => exact before
  | aofUpgradePrepare =>
    rw [updateManifest]
    split_ifs
    · refine persistAofManifest_kept { kept with base := ?_, counters := ⟨show (0 : Int) ≤ 1 by decide, kept.counters.2⟩ }
        (entries_ne_nil_of_base (Option.some_ne_none _)) (fun none => by cases none) rfl
      rintro ai ⟨⟩
      exact ⟨⟨derived_self filename, rfl, show (0 : Int) < 1 by decide, show (1 : Int) < 2 ^ 63 by decide⟩, rfl⟩
    · exact before
  | aofOpenIfNeededOnServerStart aofUseRdbPreamble =>
    apply (openedOnStart_outcome kept based aofUseRdbPreamble).bind
    rintro am' ⟨kept', nonempty, based', dirty⟩
    exact persistAofManifest_idle before running clean kept' (fun _ => nonempty) based' dirty
  | openNewIncrAofForAppend =>
    apply (getNewIncrAofName_outcome kept).bind
    rintro _ ⟨rfl, kept'⟩
    exact persistAofManifest_kept kept' (entries_ne_nil_of_incr (by simp [withNewIncr])) based rfl
  | backgroundRewriteDoneHandler aofUseRdbPreamble waitRewrite aofFdOpen aofDisableAutoGc =>
    apply (rewrittenManifest_outcome kept aofUseRdbPreamble waitRewrite aofFdOpen).bind
    rintro am' ⟨kept', based', dirty⟩
    have written : StoreKept filename (persistAofManifest store am') :=
      persistAofManifest_kept kept' (entries_ne_nil_of_base based') (fun none => absurd none based') dirty
    apply persist_delHistory written
    rw [persistAofManifest, if_pos dirty]
  | aofDelHistoryFiles aofDisableAutoGc => exact persist_delHistory before running aofDisableAutoGc

theorem reloaded_kept (kept : Kept filename am) : Kept filename (reloaded am) where
  base ai member := by
    obtain ⟨made, seq⟩ := kept.base ai member
    refine ⟨made, ?_⟩
    rw [reloaded]
    rw [if_neg (show am.baseAofInfo ≠ none from Option.ne_none_iff_exists'.mpr ⟨ai, member⟩), seq]
  history := kept.history
  incr ai member := by
    obtain ⟨made, below⟩ := kept.incr ai member
    refine ⟨made, ?_⟩
    rw [reloaded]
    rwa [if_neg (show am.incrAofList ≠ [] from ne_nil_of_mem member)]
  increasing := kept.increasing
  last ai final := by
    rw [reloaded]
    rw [if_neg (show am.incrAofList ≠ [] from ne_nil_of_mem (mem_of_getLast? final)), kept.last ai final]
  counters := by
    rw [reloaded]
    dsimp only
    constructor
    · split_ifs
      · exact le_rfl
      · exact kept.counters.1
    · split_ifs
      · exact le_rfl
      · exact kept.counters.2

/-- A server is restarted only while its manifest can be loaded. -/
def RestartLoadable (filename : AofFilename) (store : ManifestStore) (op : ManifestOp) : Prop :=
  op = .aofLoadManifestFromDisk → ∀ am ∈ store.manifest, Loadable filename am

theorem manifestStep_kept (store : ManifestStore) (op : ManifestOp) (before : StoreKept filename store)
    (loadable : RestartLoadable filename store op) :
    Outcome (manifestStep filename store op) Overflow fun result => StoreKept filename result.1 := by
  by_cases restart : op = .aofLoadManifestFromDisk
  · subst restart
    cases before with
    | stopped => exact .fresh kept_create rfl rfl
    | fresh kept clean nothing => exact .fresh kept_create rfl rfl
    | @written am kept clean nonempty based =>
      obtain ⟨splittable, fits⟩ := loadable rfl am rfl
      have loaded := aofLoadManifestFromFile_written kept.listed nonempty fun ai member => by
        obtain ⟨type, made⟩ := kept.made member
        exact ⟨made.fine, made.derived.splittable_iff.mpr splittable, fits ai member⟩
      rw [manifestStep]
      dsimp only
      rw [loaded]
      exact .written (reloaded_kept kept) rfl nonempty based
  · rw [manifestStep, if_neg restart]
    cases running : store.manifest with
    | none => exact before
    | some am =>
      apply (updateManifest_kept before running op).bind
      exact fun store' kept => kept

/-- Every manifest that the server keeps is read back from its file exactly if its lines can be loaded. -/
theorem manifest_reads_back_iff {ops : List ManifestOp}
    (restarts : Guarded (manifestStep filename) (RestartLoadable filename) ⟨none, none⟩ ops) :
    Outcome (run (manifestStep filename) ⟨none, none⟩ ops) Overflow fun result =>
      ∀ am file, result.1.manifest = some am → result.1.file = some file →
        (ReadsBack am file ↔ Loadable filename am) := by
  apply (run_invariant manifestStep_kept ops _ .stopped restarts).mono
  rintro ⟨⟨manifest, stored⟩, outs⟩ kept am file running written
  subst running written
  cases kept with
  | written kept clean nonempty based => exact readsBack_iff kept nonempty
end Store

instance (name : Aof.Sds) : Decidable (Splittable name) := inferInstanceAs (Decidable (_ ∨ _))

instance (ai : AofInfo) : Decidable (Fits ai) := inferInstanceAs (Decidable (_ ≤ _))

instance (filename : AofFilename) (am : AofManifest) : Decidable (Loadable filename am) :=
  inferInstanceAs (Decidable (_ ∧ _))

instance (filename : AofFilename) (store : ManifestStore) (op : ManifestOp) :
    Decidable (RestartLoadable filename store op) :=
  inferInstanceAs (Decidable (_ → _))

def defaultFilename : AofFilename := ⟨ascii "appendonly.aof", by decide, by decide⟩

/-- A server starts, rewrites its file and starts again. -/
theorem manifest_reads_back_iff_sample :
    Guarded (manifestStep defaultFilename) (RestartLoadable defaultFilename) ⟨none, none⟩
        [.aofLoadManifestFromDisk, .aofOpenIfNeededOnServerStart true, .openNewIncrAofForAppend,
          .backgroundRewriteDoneHandler true false true true, .aofLoadManifestFromDisk] ∧
      Outcome (run (manifestStep defaultFilename) ⟨none, none⟩
          [.aofLoadManifestFromDisk, .aofOpenIfNeededOnServerStart true, .openNewIncrAofForAppend,
            .backgroundRewriteDoneHandler true false true true, .aofLoadManifestFromDisk]) Overflow
        fun result => ∀ am file, result.1.manifest = some am → result.1.file = some file →
          (ReadsBack am file ↔ Loadable defaultFilename am) :=
  ⟨by decide +kernel, manifest_reads_back_iff (by decide +kernel)⟩

/-- A name with an apostrophe is written without quotes. -/
def apostropheFilename : AofFilename := ⟨ascii "it's.aof", by decide, by decide⟩

/-- The first manifest of a server with that name cannot be loaded. -/
theorem manifest_not_read_back : ∃ store outs am file, run (manifestStep apostropheFilename) ⟨none, none⟩
        [.aofLoadManifestFromDisk, .aofOpenIfNeededOnServerStart true] = .ok (store, outs) ∧
      store.manifest = some am ∧ store.file = some file ∧
      (aofLoadManifestFromFile file).toOption = none ∧ ¬ReadsBack am file := by
  refine ⟨_, _, _, _, rfl, rfl, rfl, ?_⟩
  rw [and_iff_left_of_imp]
  · decide +kernel
  · rintro failed ⟨loaded, finished, -⟩
    rw [finished] at failed
    cases failed

end Redis.Aof

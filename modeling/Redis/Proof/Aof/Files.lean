import Redis.Proof.Aof.FileNames

namespace Redis.Aof
open Foundation List
variable {am : AofManifest} {calls : List FileCall} {name : Aof.Sds} {process : AofProcess}

section Calls
variable {filename : AofFilename} {dir : AofDir}

/-- The manifest file is arranged and the files that it uses exist. -/
def DirOk (filename : AofFilename) (dir : AofDir) : Prop :=
  ∀ am ∈ dir.manifest, Arranged filename am ∧ ∀ name ∈ liveNames am, name ∈ dir.files

/-- The directory after some calls. -/
def after (dir : AofDir) (calls : List FileCall) : AofDir := calls.foldl FileCall.apply dir

/-- The directory is in order before and after each call, and no call destroys a file that is used. -/
def SafeCalls (filename : AofFilename) : AofDir → List FileCall → Prop
  | dir, [] => DirOk filename dir
  | dir, call :: rest =>
    DirOk filename dir ∧ (∀ name ∈ call.destroys, name ∉ dir.live) ∧ SafeCalls filename (call.apply dir) rest

/-- The manifest file lists the files that the server knows. -/
structure Tracks (dir : AofDir) (am : AofManifest) : Prop where
  base : (dir.manifest.getD aofManifestCreate).baseAofInfo = am.baseAofInfo
  incr : (dir.manifest.getD aofManifestCreate).incrAofList = am.incrAofList
  history : (dir.manifest.getD aofManifestCreate).historyAofList = am.historyAofList

theorem after_append (dir : AofDir) (first second : List FileCall) :
    after dir (first ++ second) = after (after dir first) second := foldl_append

theorem live_of_manifest (written : dir.manifest = some am) : dir.live = liveNames am := by
  rw [AofDir.live, written]
  exact append_nil _

theorem Tracks.live (tracks : Tracks dir am) : dir.live = liveNames am := by
  rw [liveNames, ← tracks.base, ← tracks.incr, AofDir.live]
  cases dir.manifest with
  | none => rfl
  | some written => exact append_nil _

theorem Tracks.listed (tracks : Tracks dir am) : dir.listed = listedNames am := by
  rw [listedNames, liveNames, ← tracks.base, ← tracks.incr, ← tracks.history, AofDir.listed]
  cases dir.manifest with
  | none => rfl
  | some written => exact append_nil _

theorem Tracks.congr {dir' : AofDir} (tracks : Tracks dir am) (unchanged : dir'.manifest = dir.manifest) :
    Tracks dir' am := by
  obtain ⟨base, incr, history⟩ := tracks
  exact ⟨unchanged ▸ base, unchanged ▸ incr, unchanged ▸ history⟩

theorem DirOk.exist (ok : DirOk filename dir) : ∀ name ∈ dir.live, name ∈ dir.files := by
  cases written : dir.manifest with
  | none =>
    rw [AofDir.live, written]
    exact forall_mem_nil _
  | some am =>
    rw [live_of_manifest written]
    exact (ok am written).2

theorem FileCall.mem_files_apply (call : FileCall) (exists' : name ∈ dir.files) (spared : name ∉ call.destroys) :
    name ∈ (call.apply dir).files := by
  cases call with
  | rename old new =>
    simp only [destroys, mem_cons, not_or] at spared
    simp [apply, exists', spared.1]
  | unlink other =>
    simp only [destroys, mem_cons, not_mem_nil, or_false] at spared
    simp [apply, exists', spared]
  | _ => simp [apply, exists']

/-- A call that leaves the manifest file alone and destroys no file that is used. -/
theorem DirOk.apply (ok : DirOk filename dir) {call : FileCall} (unchanged : (call.apply dir).manifest = dir.manifest)
    (spares : ∀ name ∈ call.destroys, name ∉ dir.live) : DirOk filename (call.apply dir) := by
  intro am written
  rw [unchanged] at written
  obtain ⟨arranged, exist⟩ := ok am written
  refine ⟨arranged, fun name member => call.mem_files_apply (exist name member) fun destroyed => ?_⟩
  exact spares name destroyed ((live_of_manifest written).symm ▸ member)

theorem SafeCalls.ok (safe : SafeCalls filename dir calls) : DirOk filename dir := by
  cases calls with
  | nil => exact safe
  | cons call rest => exact safe.1

theorem SafeCalls.after (safe : SafeCalls filename dir calls) : DirOk filename (after dir calls) := by
  induction calls generalizing dir with
  | nil => exact safe
  | cons call rest ih => exact ih safe.2.2

theorem SafeCalls.append {first second : List FileCall} (safe : SafeCalls filename dir first)
    (safe' : SafeCalls filename (Aof.after dir first) second) : SafeCalls filename dir (first ++ second) := by
  induction first generalizing dir with
  | nil => exact safe'
  | cons call rest ih => exact ⟨safe.1, safe.2.1, ih safe.2.2 safe'⟩

theorem DirOk.single (ok : DirOk filename dir) {call : FileCall} (unchanged : (call.apply dir).manifest = dir.manifest)
    (spares : ∀ name ∈ call.destroys, name ∉ dir.live) : SafeCalls filename dir [call] :=
  ⟨ok, spares, ok.apply unchanged spares⟩

theorem DirOk.unlinks (ok : DirOk filename dir) (infos : List AofInfo)
    (unused : ∀ ai ∈ infos, ai.fileName ∉ dir.live) :
    SafeCalls filename dir (infos.map fun ai => .unlink ai.fileName) ∧
      (Aof.after dir (infos.map fun ai => .unlink ai.fileName)).manifest = dir.manifest := by
  induction infos generalizing dir with
  | nil => exact ⟨ok, rfl⟩
  | cons ai infos ih =>
    have spares : ∀ name ∈ (FileCall.unlink ai.fileName).destroys, name ∉ dir.live := by
      intro name member
      rw [mem_singleton.mp member]
      exact unused ai mem_cons_self
    obtain ⟨safe, unchanged⟩ := ih (ok.apply rfl spares) fun other member => unused other (mem_cons_of_mem _ member)
    exact ⟨⟨ok, spares, safe⟩, unchanged⟩

theorem DirOk.persist (ok : DirOk filename dir) (arranged : Arranged filename am)
    (exist : ∀ name ∈ liveNames am, name ∈ dir.files) (dirty : am.dirty = true) :
    SafeCalls filename dir (persistCalls am) ∧ (Aof.after dir (persistCalls am)).manifest = some am := by
  rw [persistCalls, if_pos dirty]
  have written : DirOk filename ⟨dir.files, some am, none⟩ := by
    intro am' same
    cases same
    exact ⟨arranged, exist⟩
  exact ⟨⟨ok, forall_mem_nil _, ok, forall_mem_nil _, ok, forall_mem_nil _, written⟩, rfl⟩
end Calls

section Work
variable {filename : AofFilename} {dir : AofDir} {work : Work}

/-- Work that is done up to the writing of the manifest. -/
structure Prepared (filename : AofFilename) (dir : AofDir) (work : Work) : Prop where
  safe : SafeCalls filename dir work.calls
  unchanged : (after dir work.calls).manifest = dir.manifest
  arranged : Arranged filename work.manifest
  counted : Counted filename work.manifest
  exist : ∀ name ∈ liveNames work.manifest, name ∈ (after dir work.calls).files
  includes : ∀ name ∈ dir.listed, name ∈ listedNames work.manifest
  dirty : work.manifest.dirty = true ∨ Tracks dir work.manifest
  fresh : ∀ new ∈ work.names, new.name ∉ new.listed

/-- Work whose manifest is in the file. -/
structure Finished (filename : AofFilename) (dir : AofDir) (work : Work) : Prop where
  safe : SafeCalls filename dir work.calls
  arranged : Arranged filename work.manifest
  counted : Counted filename work.manifest
  clean : work.manifest.dirty = false
  tracks : Tracks (after dir work.calls) work.manifest
  fresh : ∀ new ∈ work.names, new.name ∉ new.listed

variable (prepared : Prepared filename dir work)
include prepared
theorem Prepared.fresh_newName (unlisted : name ∉ listedNames work.manifest) :
    name ∉ (newName dir work.manifest name).listed := by
  rw [newName, mem_append, not_or]
  exact ⟨unlisted, fun listed => unlisted (prepared.includes name listed)⟩

theorem Prepared.not_live (unlisted : name ∉ listedNames work.manifest) : name ∉ dir.live := by
  intro live
  apply unlisted
  apply prepared.includes
  rw [AofDir.live, mem_flatMap] at live
  obtain ⟨am, written, inside⟩ := live
  exact mem_flatMap.mpr ⟨am, written, mem_listedNames.mpr (.inl inside)⟩

theorem Prepared.safe_call {call : FileCall}
    (unchanged : ∀ dir, (call.apply dir).manifest = dir.manifest) (spares : ∀ name ∈ call.destroys, name ∉ dir.live) :
    SafeCalls filename dir (work.calls ++ [call]) ∧ (after dir (work.calls ++ [call])).manifest = dir.manifest := by
  have same : (after dir work.calls).live = dir.live := by
    rw [AofDir.live, AofDir.live, prepared.unchanged]
  constructor
  · exact prepared.safe.append (prepared.safe.after.single (unchanged _) (same ▸ spares))
  · rw [after_append]
    exact (unchanged _).trans prepared.unchanged

theorem Prepared.persist : Finished filename dir
      ⟨work.calls ++ persistCalls work.manifest, { work.manifest with dirty := false }, work.names⟩ := by
  obtain ⟨safe, unchanged, arranged, counted, exist, -, dirty, fresh⟩ := prepared
  cases clean : work.manifest.dirty with
  | true =>
    obtain ⟨safe', written⟩ := safe.after.persist arranged exist clean
    refine ⟨safe.append safe', arranged.written false, counted, rfl, ?_, fresh⟩
    rw [after_append]
    constructor <;> rw [written] <;> rfl
  | false =>
    have none : persistCalls work.manifest = [] := by rw [persistCalls, clean]; rfl
    rw [none, append_nil]
    have tracks := dirty.resolve_left (by rw [clean]; exact Bool.false_ne_true)
    exact ⟨safe, arranged.written false, counted, rfl,
      ⟨(tracks.congr unchanged).base, (tracks.congr unchanged).incr, (tracks.congr unchanged).history⟩, fresh⟩

omit prepared

theorem delHistory_outcome {aofDisableAutoGc : Bool} (ok : DirOk filename dir) (tracks : Tracks dir am)
    (arranged : Arranged filename am) (clean : am.dirty = false)
    (counted : aofDisableAutoGc = true ∨ am.historyAofList = [] → Counted filename am) :
    Outcome (delHistory aofDisableAutoGc am) Overflow (Finished filename dir) := by
  rw [delHistory]
  split_ifs with idle
  · exact ⟨ok, arranged, counted idle, clean, tracks, forall_mem_nil _⟩
  · have deleted : aofDelHistoryFiles aofDisableAutoGc am = .ok { am with historyAofList := [], dirty := true } := by
      rw [aofDelHistoryFiles, if_neg idle, require_of fun ai member => (arranged.kept.history ai member).typed]
      rfl
    rw [deleted]
    have unused : ∀ ai ∈ am.historyAofList, ai.fileName ∉ dir.live := by
      intro ai member
      rw [tracks.live]
      exact arranged.history_not_live member
    obtain ⟨safe, unchanged⟩ := ok.unlinks am.historyAofList unused
    have arranged' := arranged.withoutHistory true
    have exist : ∀ name ∈ liveNames { am with historyAofList := [], dirty := true },
        name ∈ (after dir (am.historyAofList.map fun ai => .unlink ai.fileName)).files := by
      intro name member
      apply safe.after.exist
      rw [(tracks.congr unchanged).live]
      exact member
    obtain ⟨safe', written⟩ := safe.after.persist arranged' exist rfl
    refine ⟨safe.append safe', arranged.withoutHistory false, forall_mem_nil _, rfl, ?_, forall_mem_nil _⟩
    rw [after_append]
    constructor <;> rw [written] <;> rfl

theorem Finished.thenDelHistory (finished : Finished filename dir work) (aofDisableAutoGc : Bool) :
    Outcome (work.thenDelHistory aofDisableAutoGc) Overflow (Finished filename dir) := by
  rw [Work.thenDelHistory]
  apply (delHistory_outcome finished.safe.after finished.tracks finished.arranged finished.clean
    fun _ => finished.counted).bind
  intro deleted later
  refine ⟨finished.safe.append later.safe, later.arranged, later.counted, later.clean, ?_, finished.fresh⟩
  rw [after_append]
  exact later.tracks
end Work

section Plans
variable {filename : AofFilename} {dir : AofDir} {am : AofManifest} {work : Work}

theorem getNewBase_arranged (arranged : Arranged filename am) (aofUseRdbPreamble : Bool) :
    Outcome (getNewBaseFileNameAndMarkPreAsHistory filename aofUseRdbPreamble am) Overflow fun after =>
      after = withNewBase filename aofUseRdbPreamble am ∧ Arranged filename after := by
  apply (getNewBaseFileNameAndMarkPreAsHistory_outcome arranged.kept aofUseRdbPreamble).mono
  rintro _ ⟨rfl, kept⟩
  exact ⟨rfl, arranged.newBase aofUseRdbPreamble kept⟩

theorem getNewIncr_arranged (arranged : Arranged filename am) (counted : Counted filename am) :
    Outcome (getNewIncrAofName filename am) Overflow fun after =>
      after = withNewIncr filename am ∧ Arranged filename after := by
  apply (getNewIncrAofName_outcome arranged.kept).mono
  rintro _ ⟨rfl, kept⟩
  exact ⟨rfl, arranged.newIncr counted kept⟩

theorem lastIncrName_withNewIncr (am : AofManifest) :
    lastIncrName (withNewIncr filename am) = incrFileName filename (am.currIncrFileSeq + 1) := by
  rw [lastIncrName, withNewIncr, getLast?_concat]
  rfl

theorem mem_liveNames_withNewIncr (live : name ∈ liveNames (withNewIncr filename am)) :
    name ∈ liveNames am ∨ name = incrFileName filename (am.currIncrFileSeq + 1) := by
  rcases mem_liveNames.mp live with base | ⟨ai, member, rfl⟩
  · exact .inl (mem_liveNames.mpr (.inl base))
  · rcases mem_append.mp member with old | new
    · exact .inl (mem_liveNames.mpr (.inr ⟨ai, old, rfl⟩))
    · rw [mem_singleton.mp new]
      exact .inr rfl

theorem mem_liveNames_withNewBase {aofUseRdbPreamble : Bool}
    (live : name ∈ liveNames (withNewBase filename aofUseRdbPreamble am)) :
    name = baseFileName filename aofUseRdbPreamble (am.currBaseFileSeq + 1) ∨ name ∈ liveNames am := by
  rcases mem_liveNames.mp live with ⟨ai, new, rfl⟩ | old
  · cases new
    exact .inl rfl
  · exact .inr (mem_liveNames.mpr (.inr old))

theorem mem_liveNames_withMoved {moved rest : List AofInfo} (split : am.incrAofList = moved ++ rest)
    (live : name ∈ liveNames (withMoved moved rest am)) : name ∈ liveNames am := by
  rw [mem_liveNames] at live ⊢
  rcases live with base | ⟨ai, member, same⟩
  · exact .inl base
  · exact .inr ⟨ai, split ▸ mem_append_right moved member, same⟩

theorem listedNames_withNewIncr (listed : name ∈ listedNames am) : name ∈ listedNames (withNewIncr filename am) := by
  rw [mem_listedNames, mem_liveNames] at listed ⊢
  rcases listed with (base | ⟨ai, member, same⟩) | history
  · exact .inl (.inl base)
  · exact .inl (.inr ⟨ai, mem_append_left _ member, same⟩)
  · exact .inr history

theorem listedNames_withNewBase {aofUseRdbPreamble : Bool} (listed : name ∈ listedNames am) :
    name ∈ listedNames (withNewBase filename aofUseRdbPreamble am) := by
  rw [mem_listedNames, mem_liveNames] at listed ⊢
  rcases listed with (⟨ai, member, same⟩ | incr) | ⟨ai, member, same⟩
  · exact .inr ⟨toHistory ai, mem_append_left _ (mem_map_of_mem (Option.mem_toList.mpr member)), same⟩
  · exact .inl (.inr incr)
  · exact .inr ⟨ai, mem_append_right _ member, same⟩

theorem prepared_idle (ok : DirOk filename dir) (tracks : Tracks dir am) (arranged : Arranged filename am)
    (counted : Counted filename am) : Prepared filename dir ⟨[], am, []⟩ where
  safe := ok
  unchanged := rfl
  arranged := arranged
  counted := counted
  exist := tracks.live ▸ ok.exist
  includes := tracks.listed ▸ fun _ => id
  dirty := .inr tracks
  fresh := forall_mem_nil _

theorem renameBase_outcome (ok : DirOk filename dir) (tracks : Tracks dir am) (arranged : Arranged filename am)
    (counted : Counted filename am) (aofUseRdbPreamble : Bool) :
    Outcome (renameBase filename aofUseRdbPreamble dir am) Overflow fun work =>
      Prepared filename dir work ∧ work.manifest.baseAofInfo ≠ none ∧ baseName work.manifest ∉ dir.live := by
  have idle := prepared_idle ok tracks arranged counted
  have unlisted := arranged.base_fresh aofUseRdbPreamble
  have unused := idle.not_live unlisted
  rw [renameBase]
  apply (getNewBase_arranged arranged aofUseRdbPreamble).bind
  intro after facts
  obtain ⟨rfl, arranged'⟩ := facts
  obtain ⟨safe, unchanged⟩ := @Prepared.safe_call _ _ _ idle
    (.renameRewritten (baseFileName filename aofUseRdbPreamble (am.currBaseFileSeq + 1))) (fun _ => rfl) (by
      intro name member
      rw [mem_singleton.mp member]
      exact unused)
  refine ⟨⟨safe, unchanged, arranged', counted.newBase arranged aofUseRdbPreamble, ?_,
    fun name listed => listedNames_withNewBase (idle.includes name listed), .inl rfl, ?_⟩, Option.some_ne_none _, unused⟩
  · intro name live
    rcases mem_liveNames_withNewBase live with rfl | old
    · exact mem_insert_self
    · exact mem_insert_of_mem (idle.exist name old)
  · intro new member
    rw [mem_singleton.mp member]
    exact idle.fresh_newName unlisted

theorem Prepared.withNewIncr (prepared : Prepared filename dir work) {call : FileCall}
    (unchanged : ∀ dir, (call.apply dir).manifest = dir.manifest)
    (spares : ∀ name ∈ call.destroys, name ∉ liveNames work.manifest ∧ name ∉ dir.live)
    (created : ∀ dir, incrFileName filename (work.manifest.currIncrFileSeq + 1) ∈ (call.apply dir).files)
    (arranged : Arranged filename (withNewIncr filename work.manifest)) :
    Prepared filename dir ⟨work.calls ++ [call], Aof.withNewIncr filename work.manifest,
      work.names ++ [newName dir work.manifest (lastIncrName (Aof.withNewIncr filename work.manifest))]⟩ := by
  obtain ⟨safe, unchanged'⟩ := prepared.safe_call unchanged fun name member => (spares name member).2
  refine ⟨safe, unchanged', arranged, prepared.counted.newIncr, ?_,
    fun name listed => listedNames_withNewIncr (prepared.includes name listed), .inl rfl, ?_⟩
  · intro name live
    rw [after_append]
    rcases mem_liveNames_withNewIncr live with old | rfl
    · exact call.mem_files_apply (prepared.exist name old) fun destroyed => (spares name destroyed).1 old
    · exact created _
  · intro new member
    rcases mem_append.mp member with old | chosen
    · exact prepared.fresh new old
    · rw [mem_singleton.mp chosen, lastIncrName_withNewIncr]
      exact prepared.fresh_newName (prepared.arranged.incr_fresh prepared.counted)

theorem Prepared.renameTempIncr (prepared : Prepared filename dir work) (ok : DirOk filename dir) (waitRewrite : Bool)
    (based : work.manifest.baseAofInfo ≠ none) :
    Outcome (renameTempIncr filename waitRewrite dir work) Overflow fun work' =>
      Prepared filename dir work' ∧ work'.manifest.baseAofInfo ≠ none := by
  rw [Aof.renameTempIncr]
  split_ifs
  · apply (getNewIncr_arranged prepared.arranged prepared.counted).bind
    intro after facts
    obtain ⟨rfl, arranged⟩ := facts
    refine ⟨prepared.withNewIncr (fun _ => rfl) ?_ ?_ arranged, based⟩
    · have unlisted := prepared.arranged.incr_fresh prepared.counted
      intro name member
      rw [lastIncrName_withNewIncr] at member
      rcases mem_cons.mp member with rfl | new
      · refine ⟨prepared.arranged.temp_not_live, ?_⟩
        cases written : dir.manifest with
        | none =>
          rw [AofDir.live, written]
          exact not_mem_nil
        | some am =>
          rw [live_of_manifest written]
          exact (ok am written).1.temp_not_live
      · rw [mem_singleton.mp new]
        exact ⟨fun live => unlisted (mem_listedNames.mpr (.inl live)), prepared.not_live unlisted⟩
    · intro dir
      rw [lastIncrName_withNewIncr]
      exact mem_insert_self
  · exact ⟨prepared, based⟩

theorem Prepared.openLastIncr (prepared : Prepared filename dir work) :
    Outcome (openLastIncr filename dir work) Overflow (Finished filename dir) := by
  rw [Aof.openLastIncr, getLastIncrAofName]
  split_ifs with empty
  · apply (getNewIncr_arranged prepared.arranged prepared.counted).bind
    intro after facts
    obtain ⟨rfl, arranged⟩ := facts
    have opened := @Prepared.withNewIncr _ _ _ prepared (.openAppend (lastIncrName (Aof.withNewIncr filename work.manifest)))
      (fun _ => rfl) (forall_mem_nil _)
      (fun _ => by rw [lastIncrName_withNewIncr]; exact mem_insert_self) arranged
    have finished := opened.persist
    rw [append_assoc] at finished
    exact finished
  · have opened : Prepared filename dir ⟨work.calls ++ [.openAppend (lastIncrName work.manifest)], work.manifest,
        work.names⟩ := by
      obtain ⟨safe, unchanged⟩ := @Prepared.safe_call _ _ _ prepared (.openAppend (lastIncrName work.manifest))
        (fun _ => rfl) fun _ member => absurd member not_mem_nil
      refine { prepared with safe, unchanged, exist := ?_ }
      intro name live
      rw [after_append]
      exact mem_insert_of_mem (prepared.exist name live)
    have finished := opened.persist
    rw [append_assoc] at finished
    dsimp only
    rw [append_nil]
    exact finished

theorem openOnStart_outcome (ok : DirOk filename dir) (tracks : Tracks dir am) (arranged : Arranged filename am)
    (counted : Counted filename am) (aofUseRdbPreamble : Bool) :
    Outcome (openOnStart filename aofUseRdbPreamble dir am) Overflow (Finished filename dir) := by
  rw [openOnStart]
  have forced : Outcome (forceBase filename aofUseRdbPreamble dir am) Overflow (Prepared filename dir) := by
    rw [forceBase]
    split_ifs
    · exact (renameBase_outcome ok tracks arranged counted aofUseRdbPreamble).mono fun _ facts => facts.1
    · exact prepared_idle ok tracks arranged counted
  exact forced.bind fun _ prepared => prepared.openLastIncr

theorem Prepared.finishRewrite (prepared : Prepared filename dir work) (aofFdOpen aofDisableAutoGc : Bool)
    (based : work.manifest.baseAofInfo ≠ none) :
    Outcome (finishRewrite aofFdOpen aofDisableAutoGc work) Overflow (Finished filename dir) := by
  rw [Aof.finishRewrite]
  obtain ⟨moved, rest, split, marked⟩ := prepared.arranged.kept.markRewritten aofFdOpen
  rw [marked]
  have ready : Prepared filename dir ⟨work.calls, withMoved moved rest work.manifest, work.names⟩ := by
    refine { prepared with
      arranged := prepared.arranged.marked split based
      counted := prepared.counted.marked split prepared.arranged.kept
      exist := fun name live => prepared.exist name (mem_liveNames_withMoved split live)
      includes := ?_, dirty := ?_ }
    · intro name listed
      have before := prepared.includes name listed
      rw [mem_listedNames, mem_liveNames] at before ⊢
      rcases before with (base | ⟨ai, member, same⟩) | ⟨ai, member, same⟩
      · exact .inl (.inl base)
      · rw [split, mem_append] at member
        rcases member with new | old
        · exact .inr ⟨toHistory ai, mem_append_left _ (mem_map_of_mem new), same⟩
        · exact .inl (.inr ⟨ai, old, same⟩)
      · exact .inr ⟨ai, mem_append_right _ member, same⟩
    · by_cases empty : work.manifest.incrAofList = []
      · rw [empty, eq_comm, append_eq_nil_iff] at split
        obtain ⟨rfl, rfl⟩ := split
        rcases prepared.dirty with dirty | tracks
        · exact .inl (by simp [withMoved, dirty])
        · exact .inr ⟨tracks.base, tracks.incr.trans empty, tracks.history⟩
      · exact .inl (by simp [withMoved, empty])
  exact ready.persist.thenDelHistory aofDisableAutoGc
end Plans

section Requests
variable {filename : AofFilename} {dir : AofDir}

/-- The manifest of a running server. -/
structure Running (filename : AofFilename) (dir : AofDir) (am : AofManifest) : Prop where
  arranged : Arranged filename am
  counted : Counted filename am
  clean : am.dirty = false
  tracks : Tracks dir am

structure PlanOk (filename : AofFilename) (dir : AofDir) (plan : Plan) : Prop where
  safe : SafeCalls filename dir plan.calls
  running : ∀ process ∈ plan.process, Running filename (after dir plan.calls) process.aofManifest
  fresh : ∀ new ∈ plan.names, new.name ∉ new.listed

theorem Finished.planOk {work : Work} (finished : Finished filename dir work)
    (manifest : process.aofManifest = work.manifest) : PlanOk filename dir ⟨work.calls, some process, work.names⟩ := by
  refine ⟨finished.safe, ?_, finished.fresh⟩
  intro other same
  cases same
  rw [manifest]
  exact ⟨finished.arranged, finished.counted, finished.clean, finished.tracks⟩

theorem planOk_stopped (ok : DirOk filename dir) : PlanOk filename dir (.idle none) :=
  ⟨ok, fun _ none => (by cases none), forall_mem_nil _⟩

theorem planOk_idle (ok : DirOk filename dir) (running : Running filename dir am)
    (manifest : process.aofManifest = am) : PlanOk filename dir (.idle (some process)) := by
  refine ⟨ok, ?_, forall_mem_nil _⟩
  intro other same
  cases same
  exact manifest ▸ running

theorem PlanOk.map {plan : Plan} (planOk : PlanOk filename dir plan) {change : AofProcess → AofProcess}
    (manifest : ∀ process, (change process).aofManifest = process.aofManifest) :
    PlanOk filename dir { plan with process := plan.process.map change } := by
  refine { planOk with running := ?_ }
  intro process member
  obtain ⟨before, old, rfl⟩ := Option.mem_map.mp member
  rw [manifest]
  exact planOk.running before old

theorem planOk_calls (running : Running filename dir am) (manifest : process.aofManifest = am)
    (safe : SafeCalls filename dir calls) (unchanged : (after dir calls).manifest = dir.manifest)
    {names : List NewName} (fresh : ∀ new ∈ names, new.name ∉ new.listed) :
    PlanOk filename dir ⟨calls, some process, names⟩ := by
  refine ⟨safe, ?_, fresh⟩
  intro other same
  cases same
  exact manifest ▸ { running with tracks := running.tracks.congr unchanged }

section Served
variable {process : AofProcess} (ok : DirOk filename dir) (running : Running filename dir process.aofManifest)

include ok running
omit ok in
theorem temp_not_live : getTempIncrAofName filename ∉ dir.live := by
  rw [running.tracks.live]
  exact running.arranged.temp_not_live

theorem openNewIncr_outcome : Outcome (openNewIncr filename dir process) Overflow (PlanOk filename dir) := by
  rw [openNewIncr]
  cases process.aofState with
  | off => exact planOk_idle ok running rfl
  | waitRewrite =>
    apply planOk_calls running _ _ rfl fun _ member => absurd member not_mem_nil
    · rfl
    · apply ok.single rfl
      intro name member
      rw [mem_singleton.mp member]
      exact temp_not_live running
  | on =>
    have idle := prepared_idle ok running.tracks running.arranged running.counted
    have unlisted := running.arranged.incr_fresh running.counted
    apply (getNewIncr_arranged running.arranged running.counted).bind
    intro after facts
    obtain ⟨rfl, arranged⟩ := facts
    have opened := @Prepared.withNewIncr _ _ _ idle
      (.openTruncate (lastIncrName (withNewIncr filename process.aofManifest))) (fun _ => rfl) (by
        intro name member
        rw [mem_singleton.mp member, lastIncrName_withNewIncr]
        exact ⟨fun live => unlisted (mem_listedNames.mpr (.inl live)), idle.not_live unlisted⟩)
      (fun _ => by rw [lastIncrName_withNewIncr]; exact mem_insert_self) arranged
    exact opened.persist.planOk rfl

theorem rewriteInBackground_outcome (forked : Bool) :
    Outcome (rewriteInBackground filename forked dir process) Overflow (PlanOk filename dir) := by
  rw [rewriteInBackground]
  split_ifs
  · exact planOk_idle ok running rfl
  · exact (openNewIncr_outcome ok running).bind fun _ planOk => planOk.map fun _ => rfl

theorem startAppendOnly_outcome (deferred forked : Bool) :
    Outcome (startAppendOnly filename deferred forked dir process) Overflow (PlanOk filename dir) := by
  rw [startAppendOnly]
  by_cases off : process.aofState ≠ .off
  · rw [if_pos off]
    exact planOk_idle ok running rfl
  · rw [if_neg off]
    cases deferred with
    | true => exact planOk_idle ok running rfl
    | false =>
      have waiting : Running filename dir
          ({ process with aofState := .waitRewrite, aofChild := false } : AofProcess).aofManifest := running
      apply (rewriteInBackground_outcome ok waiting forked).bind
      intro plan planOk
      apply planOk.map
      intro process
      cases forked <;> rfl

theorem safeCalls_cleanup : SafeCalls filename dir (cleanupRewrite filename process) ∧
    (after dir (cleanupRewrite filename process)).manifest = dir.manifest := by
  rw [cleanupRewrite]
  split_ifs
  · refine ⟨ok.single rfl ?_, rfl⟩
    intro name member
    rw [mem_singleton.mp member]
    exact temp_not_live running
  · exact ⟨ok, rfl⟩

omit ok in
theorem planOk_givenUp {based named : Work} (prepared : Prepared filename dir based)
    (unused : baseName based.manifest ∉ dir.live) (named' : Prepared filename dir named) :
    PlanOk filename dir ⟨based.calls ++ .unlink (baseName based.manifest) :: cleanupRewrite filename process,
      some { process with aofChild := false }, named.names⟩ := by
  obtain ⟨safe, unchanged⟩ := @Prepared.safe_call _ _ _ prepared (.unlink (baseName based.manifest)) (fun _ => rfl) (by
    intro name member
    rw [mem_singleton.mp member]
    exact unused)
  have running' : Running filename (after dir (based.calls ++ [.unlink (baseName based.manifest)]))
      process.aofManifest := { running with tracks := running.tracks.congr unchanged }
  obtain ⟨safe', unchanged'⟩ := safeCalls_cleanup safe.after running'
  rw [← singleton_append, ← append_assoc]
  apply planOk_calls running _ (safe.append safe') _ named'.fresh
  · rfl
  · rw [after_append]
    exact unchanged'.trans unchanged

theorem rewriteDone_outcome (success aofUseRdbPreamble aofDisableAutoGc : Bool) :
    Outcome (rewriteDone filename success aofUseRdbPreamble aofDisableAutoGc dir process) Overflow
      (PlanOk filename dir) := by
  rw [rewriteDone]
  by_cases child : process.aofChild = true
  · rw [if_pos child]
    cases success with
    | true =>
      apply (renameBase_outcome ok running.tracks running.arranged running.counted aofUseRdbPreamble).bind
      intro based facts
      obtain ⟨prepared, some, unused⟩ := facts
      apply (prepared.renameTempIncr ok _ some).bind
      intro named facts
      obtain ⟨prepared', some'⟩ := facts
      split_ifs
      · exact planOk_givenUp running prepared unused prepared'
      · exact (prepared'.finishRewrite process.aofFdOpen aofDisableAutoGc some').bind fun _ finished =>
          finished.planOk rfl
      · exact (prepared'.finishRewrite process.aofFdOpen aofDisableAutoGc some').bind fun _ finished =>
          finished.planOk rfl
    | false =>
      obtain ⟨safe, unchanged⟩ := safeCalls_cleanup ok running
      have ended : ({ process with aofChild := false } : AofProcess).aofManifest = process.aofManifest := rfl
      exact planOk_calls running ended safe unchanged fun _ member => absurd member not_mem_nil
  · rw [if_neg child]
    exact planOk_idle ok running rfl

theorem runningRequest_outcome (request : AofRequest) :
    Outcome (runningRequest filename dir process request) Overflow (PlanOk filename dir) := by
  cases request with
  | start appendonly aofUseRdbPreamble aofDisableAutoGc => exact planOk_idle ok running rfl
  | startAppendOnly deferred forked => exact startAppendOnly_outcome ok running deferred forked
  | stopAppendOnly =>
    rw [runningRequest, stopAppendOnly]
    split_ifs
    · exact planOk_idle ok running rfl
    · exact planOk_idle ok running rfl
  | rewriteAppendOnlyFileBackground forked => exact rewriteInBackground_outcome ok running forked
  | backgroundRewriteDoneHandler success aofUseRdbPreamble aofDisableAutoGc =>
    exact rewriteDone_outcome ok running success aofUseRdbPreamble aofDisableAutoGc
  | aofDelHistoryFiles aofDisableAutoGc =>
    rw [runningRequest]
    exact (delHistory_outcome ok running.tracks running.arranged running.clean fun _ => running.counted).bind
      fun _ finished => finished.planOk rfl
end Served
end Requests

section Start
variable {filename : AofFilename} {dir : AofDir} {am : AofManifest}

/-- The manifest file has an incremental file, or its history has none. -/
def IncrShown (filename : AofFilename) (dir : AofDir) : Prop :=
  ∀ am ∈ dir.manifest, am.incrAofList = [] → ∀ ai ∈ am.historyAofList, ai.fileName ≠ incrFileName filename ai.fileSeq

theorem Arranged.no_apostrophe (arranged : Arranged filename am) {ai : AofInfo} (member : ai ∈ entries am) :
    ai.fileName.getLast? ≠ some 39 := by
  have base : ∀ preamble, (baseFileName filename preamble ai.fileSeq).getLast? ≠ some 39 := by
    intro preamble
    rw [getLast_baseFileName]
    cases preamble <;> decide
  have incr : (incrFileName filename ai.fileSeq).getLast? ≠ some 39 := by
    rw [getLast_incrFileName]
    decide
  rw [entries, mem_append, mem_append, Option.mem_toList] at member
  rcases member with (isBase | isHistory) | isIncr
  · obtain ⟨preamble, named⟩ := arranged.base ai isBase
    exact named ▸ base preamble
  · cases arranged.history ai isHistory with
    | base preamble named before => exact named ▸ base preamble
    | incr named before => exact named ▸ incr
  · exact arranged.incr ai isIncr ▸ incr

/-- A manifest that is loaded from its file is the written one with the counters that the file shows. -/
theorem loaded_eq_reloaded {loaded : AofManifest} (arranged : Arranged filename am)
    (finished : aofLoadManifestFromFile (getAofManifestAsString am) = .ok loaded) : loaded = reloaded am := by
  have lines := finished
  rw [getAofManifestAsString_eq] at lines
  have parsed := lines_of_loaded lines
  by_cases nothing : entries am = []
  · rw [nothing] at lines
    cases lines
  · have written := aofLoadManifestFromFile_written arranged.kept.listed nothing fun ai member => by
      obtain ⟨type, made⟩ := arranged.kept.made member
      obtain ⟨fits, _, isParsed⟩ := parsed ai member
      exact ⟨made.fine, splittable_of_parsed (arranged.no_apostrophe member) isParsed, fits⟩
    rw [written] at finished
    cases finished
    rfl

theorem aofLoadManifestFromDisk_ok (ok : DirOk filename dir) (loaded : aofLoadManifestFromDisk dir = .ok am) :
    Arranged filename am ∧ Tracks dir am ∧ am.dirty = false ∧ (IncrShown filename dir → Counted filename am) := by
  rw [aofLoadManifestFromDisk] at loaded
  cases written : dir.manifest with
  | none =>
    rw [written] at loaded
    cases loaded
    refine ⟨.created, ?_, rfl, fun _ _ member => absurd member not_mem_nil⟩
    constructor <;> rw [written] <;> rfl
  | some stored =>
    rw [written] at loaded
    have arranged := (ok stored written).1
    have same := loaded_eq_reloaded arranged loaded
    subst same
    refine ⟨arranged.reload, ?_, rfl, fun shown => arranged.counted_reload (shown stored written)⟩
    constructor <;> rw [written] <;> rfl

theorem startServer_outcome (ok : DirOk filename dir) (appendonly aofUseRdbPreamble aofDisableAutoGc : Bool)
    (shown : (appendonly = false ∧ aofDisableAutoGc = false) ∨ IncrShown filename dir) :
    Outcome (startServer filename appendonly aofUseRdbPreamble aofDisableAutoGc dir) Overflow (PlanOk filename dir) := by
  rw [startServer]
  cases loaded : aofLoadManifestFromDisk dir with
  | error error => exact planOk_stopped ok
  | ok am =>
    obtain ⟨arranged, tracks, clean, counted⟩ := aofLoadManifestFromDisk_ok ok loaded
    dsimp only
    cases appendonly with
    | true =>
      have counted' := counted (shown.resolve_left fun off => by cases off.1)
      rw [if_pos rfl]
      split_ifs
      · apply (openOnStart_outcome ok tracks arranged counted' aofUseRdbPreamble).bind
        intro opened finished
        exact (finished.thenDelHistory aofDisableAutoGc).bind fun _ finished' => finished'.planOk rfl
      · exact planOk_stopped ok
    | false =>
      refine (delHistory_outcome ok tracks arranged clean ?_).bind fun _ finished => finished.planOk rfl
      intro idle
      rcases shown with enabled | shown
      · have none := idle.resolve_left (by rw [enabled.2]; exact Bool.false_ne_true)
        intro ai member
        rw [none] at member
        exact absurd member not_mem_nil
      · exact counted shown
end Start

section System
variable {filename : AofFilename}

structure SystemOk (filename : AofFilename) (system : AofSystem) : Prop where
  safe : SafeCalls filename system.dir system.pending
  running : ∀ process ∈ system.process, Running filename (after system.dir system.pending) process.aofManifest

/-- The files that the manifest uses exist, and the next call destroys none of them. -/
structure FilesSafe (system : AofSystem) : Prop where
  exist : ∀ name ∈ system.dir.live, name ∈ system.dir.files
  spared : ∀ call ∈ system.pending.head?, ∀ name ∈ call.destroys, name ∉ system.dir.live

/-- A server starts while the manifest file shows the last incremental file, or with `appendonly no` and the deletion of
the history files enabled. -/
def StartShown (filename : AofFilename) (system : AofSystem) : AofEvent → Prop
  | .request (.start appendonly _ aofDisableAutoGc) =>
    (appendonly = false ∧ aofDisableAutoGc = false) ∨ IncrShown filename system.dir
  | _ => True

/-- Every chosen name was new. -/
def AllNew (names : List NewName) : Prop := ∀ new ∈ names, new.name ∉ new.listed

theorem SystemOk.filesSafe {system : AofSystem} (systemOk : SystemOk filename system) : FilesSafe system := by
  refine ⟨systemOk.safe.ok.exist, ?_⟩
  intro call next
  have safe := systemOk.safe
  cases pending : system.pending with
  | nil =>
    rw [pending] at next
    cases next
  | cons first rest =>
    rw [pending] at next safe
    cases next
    exact safe.2.1

theorem requestPlan_outcome {dir : AofDir} {process : Option AofProcess} {pending : List FileCall} {request : AofRequest}
    (ok : DirOk filename dir) (running : ∀ running ∈ process, Running filename dir running.aofManifest)
    (shown : StartShown filename ⟨dir, process, pending⟩ (.request request)) :
    Outcome (requestPlan filename dir process request) Overflow (PlanOk filename dir) := by
  cases process with
  | some process => exact runningRequest_outcome ok (running process rfl) request
  | none =>
    cases request with
    | start appendonly aofUseRdbPreamble aofDisableAutoGc =>
      exact startServer_outcome ok appendonly aofUseRdbPreamble aofDisableAutoGc shown
    | _ => exact planOk_stopped ok

theorem fileStep_ok (system : AofSystem) (event : AofEvent) (systemOk : SystemOk filename system)
    (shown : StartShown filename system event) :
    Outcome (fileStep filename system event) Overflow fun result => SystemOk filename result.1 ∧ AllNew result.2 := by
  have silent : AllNew [] := forall_mem_nil _
  obtain ⟨dir, process, pending⟩ := system
  obtain ⟨safe, running⟩ := systemOk
  cases event with
  | request request =>
    rw [fileStep]
    split_ifs with busy
    · exact ⟨⟨safe, running⟩, silent⟩
    · dsimp only at busy
      rw [not_not] at busy
      subst busy
      apply (requestPlan_outcome safe running shown).bind
      intro plan planOk
      exact ⟨⟨planOk.safe, planOk.running⟩, planOk.fresh⟩
  | call =>
    cases pending with
    | nil => exact ⟨⟨safe, running⟩, silent⟩
    | cons call rest => exact ⟨⟨safe.2.2, running⟩, silent⟩
  | crash => exact ⟨⟨safe.ok, fun _ none => by cases none⟩, silent⟩

/-- In a run whose starts find the last incremental file in the manifest, every file that is used exists, no call destroys
one, and every new name stands nowhere in the manifest. -/
theorem manifest_files_safe {events : List AofEvent}
    (starts : Guarded (fileStep filename) (StartShown filename) emptySystem events) :
    Outcome (run (fileStep filename) emptySystem events) Overflow fun result =>
      FilesSafe result.1 ∧ ∀ names ∈ result.2, AllNew names := by
  have empty : SystemOk filename emptySystem := ⟨fun _ none => (by cases none), fun _ none => by cases none⟩
  apply (run_invariant_outputs _ fileStep_ok events emptySystem empty starts).mono
  intro result facts
  exact ⟨facts.1.filesSafe, facts.2⟩
end System

instance (filename : AofFilename) (dir : AofDir) : Decidable (IncrShown filename dir) :=
  inferInstanceAs (Decidable (∀ am ∈ dir.manifest, _))

instance (filename : AofFilename) (system : AofSystem) (event : AofEvent) :
    Decidable (StartShown filename system event) :=
  match event with
  | .request (.start _ _ _) => inferInstanceAs (Decidable (_ ∨ _))
  | .request (.startAppendOnly _ _) => .isTrue trivial
  | .request .stopAppendOnly => .isTrue trivial
  | .request (.rewriteAppendOnlyFileBackground _) => .isTrue trivial
  | .request (.backgroundRewriteDoneHandler _ _ _) => .isTrue trivial
  | .request (.aofDelHistoryFiles _) => .isTrue trivial
  | .call => .isTrue trivial
  | .crash => .isTrue trivial

/-- A server that crashes between the two writings of the manifest at the end of a rewrite, and its restart. -/
def crashInRewrite : List AofEvent :=
  [.request (.start true true false)] ++ List.replicate 5 .call ++
    [.request (.rewriteAppendOnlyFileBackground true)] ++ List.replicate 4 .call ++
    [.request (.backgroundRewriteDoneHandler true true false)] ++ List.replicate 5 .call ++ [.crash] ++
    [.request (.start true true false)] ++ List.replicate 6 .call

theorem manifest_files_safe_sample :
    Guarded (fileStep defaultFilename) (StartShown defaultFilename) emptySystem crashInRewrite ∧
      Outcome (run (fileStep defaultFilename) emptySystem crashInRewrite) Overflow
        fun result => FilesSafe result.1 ∧ ∀ names ∈ result.2, AllNew names := by
  have starts : Guarded (fileStep defaultFilename) (StartShown defaultFilename) emptySystem crashInRewrite := by
    decide +kernel
  apply And.intro starts
  apply manifest_files_safe
  exact starts

/-- The same crash after the append only file was switched off. The restart opens the old incremental file again and then
removes it as a file of the history. -/
def crashAfterSwitchOff : List AofEvent :=
  [.request (.start true true false)] ++ List.replicate 5 .call ++ [.request .stopAppendOnly] ++
    [.request (.rewriteAppendOnlyFileBackground true)] ++
    [.request (.backgroundRewriteDoneHandler true true false)] ++ List.replicate 4 .call ++ [.crash] ++
    [.request (.start true true false)] ++ List.replicate 5 .call

theorem manifest_file_lost :
    Outcome (run (fileStep defaultFilename) emptySystem crashAfterSwitchOff) (fun _ => False) fun result =>
      (∃ name ∈ result.1.dir.live, name ∉ result.1.dir.files) ∧
        ∃ names ∈ result.2, ∃ new ∈ names, new.name ∈ new.listed := by
  decide +kernel

end Redis.Aof

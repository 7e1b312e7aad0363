import Redis.Proof.Aof.Files

namespace Redis.Aof
open Foundation List
variable {filename : AofFilename} {aofUseRdbPreamble waitRewrite aofFdOpen aofDisableAutoGc : Bool}
variable {am based named new : AofManifest} {dir : AofDir}

theorem getNewBase_ok (made : getNewBaseFileNameAndMarkPreAsHistory filename aofUseRdbPreamble am = .ok based) :
    based = withNewBase filename aofUseRdbPreamble am := by
  rw [getNewBaseFileNameAndMarkPreAsHistory, markBaseAsHistory_eq] at made
  obtain ⟨_, marked, made⟩ := exists_of_bind_eq_ok made
  obtain ⟨_, _, marked⟩ := exists_of_bind_eq_ok marked
  cases marked
  obtain ⟨seq, next, made⟩ := exists_of_bind_eq_ok made
  obtain ⟨rfl, _⟩ := (incrementSeq_outcome _).of_ok next
  cases made
  rfl

theorem nameTempIncr_ok (made : nameTempIncr filename waitRewrite am = .ok named) :
    named = if waitRewrite then withNewIncr filename am else am := by
  rw [nameTempIncr] at made
  split_ifs at made ⊢
  · obtain ⟨seq, next, made⟩ := exists_of_bind_eq_ok made
    obtain ⟨rfl, _⟩ := (incrementSeq_outcome _).of_ok next
    cases made
    rfl
  · cases made
    rfl

theorem rewritten_names (made : nameTempIncr filename waitRewrite (withNewBase filename aofUseRdbPreamble am) = .ok named)
    (marked : markRewrittenIncrAofAsHistory aofFdOpen named = .ok new) :
    new.dirty = true ∧ baseFileName filename aofUseRdbPreamble (am.currBaseFileSeq + 1) ∈ liveNames new ∧
      (waitRewrite = true → lastIncrName named = incrFileName filename (am.currIncrFileSeq + 1)) ∧
      ∀ name ∈ liveNames new, (waitRewrite = true ∧ name = lastIncrName named) ∨
        name = baseFileName filename aofUseRdbPreamble (am.currBaseFileSeq + 1) ∨ name ∈ liveNames am := by
  have same := nameTempIncr_ok made
  obtain ⟨moved, rest, split, whole⟩ := markRewrittenIncrAofAsHistory_eq aofFdOpen named
  obtain ⟨_, _, ended⟩ := exists_of_bind_eq_ok (whole.symm.trans marked)
  cases ended
  split_ifs at same with waits
  · subst same
    refine ⟨by simp [withMoved, withNewIncr], mem_liveNames.mpr (.inl ⟨_, rfl, rfl⟩),
      fun _ => lastIncrName_withNewIncr _, fun name member => ?_⟩
    rcases mem_liveNames_withNewIncr (mem_liveNames_withMoved split member) with old | isNew
    · exact .inr (mem_liveNames_withNewBase old)
    · exact .inl ⟨waits, isNew.trans (lastIncrName_withNewIncr _).symm⟩
  · subst same
    refine ⟨by simp [withMoved, withNewBase], mem_liveNames.mpr (.inl ⟨_, rfl, rfl⟩),
      fun waits' => absurd waits' waits, fun name member => ?_⟩
    exact .inr (mem_liveNames_withNewBase (mem_liveNames_withMoved split member))

section Directory
variable {taken : List Aof.Sds} {failing : Option ManifestCall} {base temp incr : Aof.Sds}

theorem live_congr {dir' : AofDir} (unchanged : dir'.manifest = dir.manifest) : dir'.live = dir.live := by
  rw [AofDir.live, unchanged, ← AofDir.live]

theorem kept_iff_disjoint {used files : List Aof.Sds} (left : ∀ name ∈ used, name ∈ files ↔ name ∉ taken) :
    (∀ name ∈ used, name ∈ files) ↔ taken.Disjoint used := by
  constructor
  · exact fun kept name isTaken inUse => (left name inUse).mp (kept name inUse) isTaken
  · exact fun disjoint name inUse => (left name inUse).mpr fun isTaken => disjoint isTaken inUse

theorem after_unlinks (taken : List Aof.Sds) (dir : AofDir) : (after dir (taken.map .unlink)).manifest = dir.manifest ∧
    ∀ name, name ∈ (after dir (taken.map .unlink)).files ↔ name ∈ dir.files ∧ name ∉ taken := by
  induction taken generalizing dir with
  | nil => exact ⟨rfl, fun name => by simp [after]⟩
  | cons first taken ih =>
    obtain ⟨unchanged, files⟩ := ih (FileCall.apply dir (.unlink first))
    refine ⟨unchanged, fun name => (files name).trans ?_⟩
    simp [FileCall.apply, and_assoc]

theorem unlinks_keep_iff (exist : ∀ name ∈ dir.live, name ∉ taken → name ∈ dir.files) :
    (∀ name ∈ (after dir (taken.map .unlink)).live, name ∈ (after dir (taken.map .unlink)).files) ↔
      taken.Disjoint dir.live := by
  obtain ⟨unchanged, left⟩ := after_unlinks taken dir
  rw [live_congr unchanged]
  exact kept_iff_disjoint fun name inUse => (left name).trans (and_iff_right_of_imp (exist name inUse))

theorem after_persistFailing (dirty : am.dirty = true) (dir : AofDir) :
    (after dir (persistFailing am failing).1).files = dir.files ∧ (after dir (persistFailing am failing).1).manifest =
        if failing = none ∨ failing = some .fsyncDir then some am else dir.manifest := by
  cases failing with
  | none => simp [persistFailing, persistCalls, dirty, after, FileCall.apply]
  | some call => cases call <;> simp [persistFailing, persistCalls, dirty, after, FileCall.apply]

/-- The new files are there and the manifest is written, unless a call fails before that. -/
theorem after_writeRewritten (dirty : am.dirty = true) (dir : AofDir) (base temp incr : Aof.Sds) :
    let written := writeRewritten waitRewrite base temp incr am failing
    written.2 = failing.isNone ∧ (after dir written.1).manifest =
        (if failing = none ∨ failing = some .fsyncDir then some am else dir.manifest) ∧
      ∀ name, name ∈ (after dir written.1).files ↔ (waitRewrite = true ∧ name = incr) ∨
        ((waitRewrite = true → name ≠ temp) ∧ (name = base ∨ name ∈ dir.files)) := by
  obtain ⟨files, manifest⟩ := @after_persistFailing am failing dirty
    (after dir (.renameRewritten base :: if waitRewrite then [.rename temp incr] else []))
  dsimp only [writeRewritten]
  rw [after_append, manifest, files]
  refine ⟨by simp [persistFailing, dirty], ?_⟩
  cases waitRewrite <;> simp [after, FileCall.apply, and_comm]

theorem after_delHistoryFailing {deleted : List FileCall} (written : dir.manifest = some new)
    (made : delHistoryFailing aofDisableAutoGc { new with dirty := false } failing = .ok deleted) :
    (after dir deleted).live = liveNames new ∧ ∀ name, name ∈ (after dir deleted).files ↔
      name ∈ dir.files ∧ name ∉ if aofDisableAutoGc then [] else new.historyAofList.map AofInfo.fileName := by
  rw [delHistoryFailing] at made
  split_ifs at made with idle
  · cases made
    refine ⟨live_of_manifest written, fun name => (and_iff_left ?_).symm⟩
    rcases idle with disabled | empty
    · simp [disabled]
    · simp [show new.historyAofList = [] from empty]
  · obtain ⟨next, removed, made⟩ := exists_of_bind_eq_ok made
    cases made
    rw [aofDelHistoryFiles, if_neg idle] at removed
    obtain ⟨_, _, removed⟩ := exists_of_bind_eq_ok removed
    cases removed
    rw [if_neg (not_or.mp idle).1, after_append]
    obtain ⟨unchanged, left⟩ := after_unlinks (new.historyAofList.map AofInfo.fileName) dir
    obtain ⟨files, manifest⟩ := @after_persistFailing { new with historyAofList := [], dirty := true } failing rfl
      (after dir ((new.historyAofList.map AofInfo.fileName).map .unlink))
    refine ⟨?_, fun name => by rw [files]; exact left name⟩
    split_ifs at manifest
    · have live := live_of_manifest manifest
      exact live
    · exact live_of_manifest (manifest.trans (unchanged.trans written))

/-- The manifest is not written, or it is and the new files are removed. -/
theorem failed_keep_iff (dirty : new.dirty = true) {call : ManifestCall} (exist : ∀ name ∈ dir.live, name ∈ dir.files)
    (isNew : base ∈ liveNames new) (names : taken = if waitRewrite then [base, incr, temp] else [base]) {calls}
    (made : calls = (writeRewritten waitRewrite base temp incr new (some call)).1 ++ taken.map .unlink) :
    (∀ name ∈ (after dir calls).live, name ∈ (after dir calls).files) ↔ call ≠ .fsyncDir ∧ taken.Disjoint dir.live := by
  obtain ⟨-, manifest, files⟩ := @after_writeRewritten waitRewrite new (some call) dirty dir base temp incr
  rw [made, after_append]
  generalize after dir (writeRewritten waitRewrite base temp incr new (some call)).1 = written at *
  by_cases synced : call = .fsyncDir
  · obtain ⟨kept, left⟩ := after_unlinks taken written
    rw [synced, if_pos (.inr rfl)] at manifest
    rw [live_congr kept, live_of_manifest manifest]
    refine iff_of_false (fun found => ?_) fun facts => facts.1 synced
    apply ((left base).mp (found base isNew)).2
    rw [names]
    split_ifs <;> exact mem_cons_self
  · rw [if_neg (by simp [synced])] at manifest
    rw [and_iff_right synced, ← live_congr manifest]
    apply unlinks_keep_iff
    intro name inUse spared
    refine (files name).mpr (.inr ⟨fun waits same => spared ?_, .inr (exist name (live_congr manifest ▸ inUse))⟩)
    simp [names, waits, same]

theorem finished_keep_iff (dirty : new.dirty = true) {deleted calls : List FileCall}
    (exist : ∀ name ∈ liveNames new, (waitRewrite = true ∧ name = incr) ∨ name = base ∨ name ∈ dir.files)
    (differ : waitRewrite = true → incr ≠ temp)
    (removed : delHistoryFailing aofDisableAutoGc { new with dirty := false } failing = .ok deleted)
    (made : calls = (writeRewritten waitRewrite base temp incr new none).1 ++ deleted) :
    (∀ name ∈ (after dir calls).live, name ∈ (after dir calls).files) ↔ ((if waitRewrite then [temp] else []) ++
      if aofDisableAutoGc then [] else new.historyAofList.map AofInfo.fileName).Disjoint (liveNames new) := by
  obtain ⟨-, manifest, files⟩ := @after_writeRewritten waitRewrite new none dirty dir base temp incr
  obtain ⟨used, left⟩ := after_delHistoryFailing (manifest.trans (if_pos (.inl rfl))) removed
  rw [made, after_append, used]
  apply kept_iff_disjoint
  intro name inUse
  rw [left, files, mem_append, not_or]
  apply and_congr_left'
  have there := exist name inUse
  cases waitRewrite with
  | false => simpa using there
  | true =>
    by_cases same : name = temp
    · simp [same, (differ rfl).symm]
    · simpa [same] using there
end Directory

section Handler
variable (filename : AofFilename) (aofUseRdbPreamble waitRewrite aofFdOpen aofDisableAutoGc : Bool)
  (failing : RewriteCall) (dir : AofDir) (am : AofManifest)

/-- No name that is taken away is one that the manifest file uses in the end. -/
def SparesUsed : Prop :=
  let base := baseFileName filename aofUseRdbPreamble (am.currBaseFileSeq + 1)
  let incr := incrFileName filename (am.currIncrFileSeq + 1)
  let temp := getTempIncrAofName filename
  match failing with
  | .renameBase => (if waitRewrite then [temp] else []).Disjoint dir.live
  | .renameTempIncr => [base, temp].Disjoint dir.live
  | .persist false _ => (if waitRewrite then [base, incr, temp] else [base]).Disjoint dir.live
  | .persist true _ => ∀ new, rewrittenManifest filename aofUseRdbPreamble waitRewrite aofFdOpen am = .ok new →
      ((if waitRewrite then [temp] else []) ++
        if aofDisableAutoGc then [] else new.historyAofList.map AofInfo.fileName).Disjoint (liveNames new)

/-- The manifest of a server that has switched to its second INCR file for a rewrite. -/
def switchedManifest : AofManifest :=
  ⟨some ⟨ascii "appendonly.aof.1.base.rdb", 1, .base⟩, [⟨ascii "appendonly.aof.1.incr.aof", 1, .incr⟩,
    ⟨ascii "appendonly.aof.2.incr.aof", 2, .incr⟩], [], 1, 2, false⟩

def switchedDir : AofDir := ⟨liveNames switchedManifest, some switchedManifest, none⟩

end Handler
end Redis.Aof

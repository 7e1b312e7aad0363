/- This file embeds the functions of `aof.c` as the file-system calls that they make, one after the other. -/
import Redis.Construction.Aof.Manifest

namespace Redis.Aof
open Foundation

/-- The directory of the append only files. A manifest file has the text of the manifest that is given here. -/
structure AofDir where
  files : List Sds
  manifest : Option AofManifest
  tempManifest : Option AofManifest
  deriving DecidableEq, Repr

inductive FileCall where
  | openTruncate (name : Sds)
  | openAppend (name : Sds)
  /-- The file of a finished rewrite comes from another directory. -/
  | renameRewritten (name : Sds)
  | rename (old new : Sds)
  | unlink (name : Sds)
  | openTempManifest
  | writeTempManifest (am : AofManifest)
  | renameManifest
  deriving DecidableEq, Repr

def FileCall.apply (dir : AofDir) : FileCall → AofDir
  | .openTruncate name => { dir with files := dir.files.insert name }
  | .openAppend name => { dir with files := dir.files.insert name }
  | .renameRewritten name => { dir with files := dir.files.insert name }
  | .rename old new => { dir with files := (dir.files.filter (· ≠ old)).insert new }
  | .unlink name => { dir with files := dir.files.filter (· ≠ name) }
  | .openTempManifest => { dir with tempManifest := none }
  | .writeTempManifest am => { dir with tempManifest := some am }
  | .renameManifest => { dir with manifest := dir.tempManifest, tempManifest := none }

/-- The names whose files are removed, replaced or emptied. -/
def FileCall.destroys : FileCall → List Sds
  | .openTruncate name => [name]
  | .renameRewritten name => [name]
  | .rename old new => [old, new]
  | .unlink name => [name]
  | _ => []

/-- The files that a loading server reads. -/
def liveNames (am : AofManifest) : List Sds :=
  am.baseAofInfo.toList.map AofInfo.fileName ++ am.incrAofList.map AofInfo.fileName

def listedNames (am : AofManifest) : List Sds := liveNames am ++ am.historyAofList.map AofInfo.fileName

def AofDir.live (dir : AofDir) : List Sds := dir.manifest.toList.flatMap liveNames

def AofDir.listed (dir : AofDir) : List Sds := dir.manifest.toList.flatMap listedNames

variable (filename : AofFilename)

/-- A name chosen for a new file, and the names that stood in the manifest of the server or in the manifest file. -/
structure NewName where
  name : Sds
  listed : List Sds
  deriving DecidableEq, Repr

/-- The calls of a function, the manifest of the server afterwards and the chosen names. -/
structure Work where
  calls : List FileCall
  manifest : AofManifest
  names : List NewName
  deriving DecidableEq, Repr

variable (dir : AofDir) (am : AofManifest)

def newName (name : Sds) : NewName := ⟨name, listedNames am ++ dir.listed⟩

def baseName : Sds := (am.baseAofInfo.map AofInfo.fileName).getD []

def lastIncrName : Sds := (am.incrAofList.getLast?.map AofInfo.fileName).getD []

def getTempIncrAofName : Sds := ascii "temp-" ++ filename.name ++ ascii ".incr"

def persistCalls : List FileCall :=
  if am.dirty then [.openTempManifest, .writeTempManifest am, .renameManifest] else []

def delHistory (aofDisableAutoGc : Bool) (am : AofManifest) : Checked Work :=
  if aofDisableAutoGc ∨ am.historyAofList = [] then .ok ⟨[], am, []⟩
  else do
    let after ← aofDelHistoryFiles aofDisableAutoGc am
    return ⟨am.historyAofList.map (fun ai => .unlink ai.fileName) ++ persistCalls after, { after with dirty := false },
      []⟩

/-- The history files are deleted after other work. -/
def Work.thenDelHistory (aofDisableAutoGc : Bool) (work : Work) : Checked Work := do
  let deleted ← delHistory aofDisableAutoGc work.manifest
  return ⟨work.calls ++ deleted.calls, deleted.manifest, work.names⟩

def forceBase (aofUseRdbPreamble : Bool) (dir : AofDir) (am : AofManifest) : Checked Work :=
  if am.baseAofInfo = none ∧ am.incrAofList = [] then do
    let after ← getNewBaseFileNameAndMarkPreAsHistory filename aofUseRdbPreamble am
    return ⟨[.renameRewritten (baseName after)], after, [newName dir am (baseName after)]⟩
  else .ok ⟨[], am, []⟩

/-- The last incremental file is opened, or a new one. -/
def openLastIncr (work : Work) : Checked Work := do
  let after ← getLastIncrAofName filename work.manifest
  let chosen := if work.manifest.incrAofList = [] then [newName dir work.manifest (lastIncrName after)] else []
  return ⟨work.calls ++ .openAppend (lastIncrName after) :: persistCalls after, { after with dirty := false },
    work.names ++ chosen⟩

def openOnStart (aofUseRdbPreamble : Bool) (dir : AofDir) (am : AofManifest) : Checked Work := do
  openLastIncr filename dir (← forceBase filename aofUseRdbPreamble dir am)

/-- The part of the server that decides about the append only files. -/
structure AofProcess where
  aofState : AofState
  aofFdOpen : Bool
  aofManifest : AofManifest
  /-- The child process is a rewrite. -/
  aofChild : Bool
  deriving DecidableEq, Repr

/-- The calls of a request, the process afterwards and the chosen names. A process that exits is `none`. -/
structure Plan where
  calls : List FileCall
  process : Option AofProcess
  names : List NewName
  deriving DecidableEq, Repr

def Plan.idle (process : Option AofProcess) : Plan := ⟨[], process, []⟩

def aofLoadManifestFromDisk (dir : AofDir) : Except ManifestError AofManifest :=
  match dir.manifest with
  | none => .ok aofManifestCreate
  | some am => aofLoadManifestFromFile (getAofManifestAsString am)

/-- The start of a server. It ends if the manifest cannot be loaded or a file that has to be read is missing. -/
def startServer (appendonly aofUseRdbPreamble aofDisableAutoGc : Bool) (dir : AofDir) : Checked Plan :=
  match aofLoadManifestFromDisk dir with
  | .error _ => .ok (.idle none)
  | .ok am =>
    if appendonly then
      if ∀ name ∈ liveNames am, name ∈ dir.files then do
        let opened ← openOnStart filename aofUseRdbPreamble dir am
        let work ← opened.thenDelHistory aofDisableAutoGc
        return ⟨work.calls, some ⟨.on, true, work.manifest, false⟩, work.names⟩
      else .ok (.idle none)
    else do
      let work ← delHistory aofDisableAutoGc am
      return ⟨work.calls, some ⟨.off, false, work.manifest, false⟩, work.names⟩

def openNewIncr (dir : AofDir) (process : AofProcess) : Checked Plan :=
  match process.aofState with
  | .off => .ok (.idle process)
  | .waitRewrite => .ok ⟨[.openTruncate (getTempIncrAofName filename)], some { process with aofFdOpen := true }, []⟩
  | .on => do
      let after ← getNewIncrAofName filename process.aofManifest
      return ⟨.openTruncate (lastIncrName after) :: persistCalls after,
        some { process with aofFdOpen := true, aofManifest := { after with dirty := false } },
        [newName dir process.aofManifest (lastIncrName after)]⟩

/-- A rewrite is started unless one is running. The fork can fail. -/
def rewriteInBackground (forked : Bool) (dir : AofDir) (process : AofProcess) : Checked Plan :=
  if process.aofChild then .ok (.idle process)
  else do
    let plan ← openNewIncr filename dir process
    return { plan with process := plan.process.map fun process => { process with aofChild := forked } }

/-- The command `CONFIG SET appendonly yes`. In a transaction or with another child the rewrite is started later. -/
def startAppendOnly (deferred forked : Bool) (dir : AofDir) (process : AofProcess) : Checked Plan :=
  if process.aofState ≠ .off then .ok (.idle process)
  else if deferred then .ok (.idle (some { process with aofState := .waitRewrite }))
  else do
    let plan ← rewriteInBackground filename forked dir { process with aofState := .waitRewrite, aofChild := false }
    return { plan with
      process := plan.process.map fun process => if forked then process else { process with aofState := .off } }

def stopAppendOnly (process : AofProcess) : Plan :=
  if process.aofState = .off then .idle process
  else .idle (some { process with aofState := .off, aofFdOpen := false, aofChild := false })

/-- The temporary file of a server that waits for its first rewrite is removed. -/
def cleanupRewrite (process : AofProcess) : List FileCall :=
  if process.aofState = .waitRewrite then [.unlink (getTempIncrAofName filename)] else []

/-- The new base file gets its name. -/
def renameBase (aofUseRdbPreamble : Bool) (dir : AofDir) (am : AofManifest) : Checked Work := do
  let after ← getNewBaseFileNameAndMarkPreAsHistory filename aofUseRdbPreamble am
  return ⟨[.renameRewritten (baseName after)], after, [newName dir am (baseName after)]⟩

def renameTempIncr (waitRewrite : Bool) (dir : AofDir) (work : Work) : Checked Work :=
  if waitRewrite then do
    let after ← getNewIncrAofName filename work.manifest
    return ⟨work.calls ++ [.rename (getTempIncrAofName filename) (lastIncrName after)], after,
      work.names ++ [newName dir work.manifest (lastIncrName after)]⟩
  else .ok work

def finishRewrite (aofFdOpen aofDisableAutoGc : Bool) (work : Work) : Checked Work := do
  let after ← markRewrittenIncrAofAsHistory aofFdOpen work.manifest
  let persisted : Work := ⟨work.calls ++ persistCalls after, { after with dirty := false }, work.names⟩
  persisted.thenDelHistory aofDisableAutoGc

/-- The end of a rewrite. A waiting server whose temporary incremental file is missing gives the new base file up. -/
def rewriteDone (success aofUseRdbPreamble aofDisableAutoGc : Bool) (dir : AofDir) (process : AofProcess) :
    Checked Plan :=
  if process.aofChild then
    if success then do
      let based ← renameBase filename aofUseRdbPreamble dir process.aofManifest
      let named ← renameTempIncr filename (process.aofState = .waitRewrite) dir based
      if process.aofState = .waitRewrite ∧ getTempIncrAofName filename ∉ dir.files then
        return ⟨based.calls ++ .unlink (baseName based.manifest) :: cleanupRewrite filename process,
          some { process with aofChild := false }, named.names⟩
      else do
        let work ← finishRewrite process.aofFdOpen aofDisableAutoGc named
        return ⟨work.calls, some { process with
          aofState := if process.aofState = .waitRewrite then .on else process.aofState
          aofManifest := work.manifest
          aofChild := false }, work.names⟩
    else .ok ⟨cleanupRewrite filename process, some { process with aofChild := false }, []⟩
  else .ok (.idle process)

/-- The calls of `writeAofManifestFile`. -/
inductive ManifestCall where
  | openTemp
  | write
  | fsync
  | rename
  | fsyncDir
  deriving DecidableEq, Repr

/-- The calls that can fail at the end of a rewrite. The manifest is written a second time without its history. -/
inductive RewriteCall where
  | renameBase
  | renameTempIncr
  | persist (history : Bool) (call : ManifestCall)
  deriving DecidableEq, Repr

def RewriteCall.inPersist (history : Bool) : RewriteCall → Option ManifestCall
  | .persist history' call => if history' = history then some call else none
  | _ => none

/-- The calls of `persistAofManifest`, of which one can fail, and its result. A failed write leaves an incomplete file. -/
def persistFailing (am : AofManifest) (failing : Option ManifestCall) : List FileCall × Bool :=
  if am.dirty then
    (match failing with
      | some .openTemp => []
      | some .write => [.openTempManifest]
      | some .fsync => [.openTempManifest, .writeTempManifest am]
      | some .rename => [.openTempManifest, .writeTempManifest am]
      | some .fsyncDir => persistCalls am
      | none => persistCalls am, failing.isNone)
  else ([], true)

/-- The result of `aofDelHistoryFiles` is not used. -/
def delHistoryFailing (aofDisableAutoGc : Bool) (am : AofManifest) (failing : Option ManifestCall) :
    Checked (List FileCall) :=
  if aofDisableAutoGc ∨ am.historyAofList = [] then .ok []
  else do
    let after ← aofDelHistoryFiles aofDisableAutoGc am
    return (am.historyAofList.map AofInfo.fileName).map .unlink ++ (persistFailing after failing).1

def writeRewritten (waitRewrite : Bool) (base temp incr : Sds) (am : AofManifest) (failing : Option ManifestCall) :
    List FileCall × Bool :=
  let written := persistFailing am failing
  (.renameRewritten base :: (if waitRewrite then [.rename temp incr] else []) ++ written.1, written.2)

/-- The end of a successful rewrite, when one call fails. -/
def rewriteDoneFailing (aofUseRdbPreamble waitRewrite aofFdOpen aofDisableAutoGc : Bool) (failing : RewriteCall)
    (am : AofManifest) : Checked (List FileCall) := do
  let temp := getTempIncrAofName filename
  let based ← getNewBaseFileNameAndMarkPreAsHistory filename aofUseRdbPreamble am
  let base := baseName based
  if failing = .renameBase then return (if waitRewrite then [temp] else []).map .unlink
  else do
    let named ← nameTempIncr filename waitRewrite based
    let incr := lastIncrName named
    if waitRewrite ∧ failing = .renameTempIncr then return .renameRewritten base :: [base, temp].map .unlink
    else do
      let after ← markRewrittenIncrAofAsHistory aofFdOpen named
      let (calls, persisted) := writeRewritten waitRewrite base temp incr after (failing.inPersist false)
      if persisted then
        let deleted ← delHistoryFailing aofDisableAutoGc { after with dirty := false } (failing.inPersist true)
        return calls ++ deleted
      else return calls ++ (if waitRewrite then [base, incr, temp] else [base]).map .unlink

inductive AofRequest where
  | start (appendonly aofUseRdbPreamble aofDisableAutoGc : Bool)
  | startAppendOnly (deferred forked : Bool)
  | stopAppendOnly
  | rewriteAppendOnlyFileBackground (forked : Bool)
  | backgroundRewriteDoneHandler (success aofUseRdbPreamble aofDisableAutoGc : Bool)
  | aofDelHistoryFiles (aofDisableAutoGc : Bool)
  deriving DecidableEq, Repr

inductive AofEvent where
  | request (request : AofRequest)
  /-- The next call of the request is made. -/
  | call
  | crash
  deriving DecidableEq, Repr

/-- The directory, the process as it is after the pending calls, and these calls. -/
structure AofSystem where
  dir : AofDir
  process : Option AofProcess
  pending : List FileCall
  deriving DecidableEq, Repr

def runningRequest (dir : AofDir) (process : AofProcess) : AofRequest → Checked Plan
  | .start _ _ _ => .ok (.idle process)
  | .startAppendOnly deferred forked => startAppendOnly filename deferred forked dir process
  | .stopAppendOnly => .ok (stopAppendOnly process)
  | .rewriteAppendOnlyFileBackground forked => rewriteInBackground filename forked dir process
  | .backgroundRewriteDoneHandler success aofUseRdbPreamble aofDisableAutoGc =>
    rewriteDone filename success aofUseRdbPreamble aofDisableAutoGc dir process
  | .aofDelHistoryFiles aofDisableAutoGc => do
      let work ← delHistory aofDisableAutoGc process.aofManifest
      return ⟨work.calls, some { process with aofManifest := work.manifest }, work.names⟩

/-- Only a start can be requested while no server runs. -/
def stoppedRequest (dir : AofDir) : AofRequest → Checked Plan
  | .start appendonly aofUseRdbPreamble aofDisableAutoGc =>
    startServer filename appendonly aofUseRdbPreamble aofDisableAutoGc dir
  | _ => .ok (.idle none)

def requestPlan (dir : AofDir) : Option AofProcess → AofRequest → Checked Plan
  | none, request => stoppedRequest filename dir request
  | some process, request => runningRequest filename dir process request

/-- A request is served when the calls of the one before are made. The names that it chooses are the output. -/
def fileStep (system : AofSystem) : AofEvent → Checked (AofSystem × List NewName)
  | .request request =>
    if system.pending ≠ [] then .ok (system, [])
    else do
      let plan ← requestPlan filename system.dir system.process request
      return (⟨system.dir, plan.process, plan.calls⟩, plan.names)
  | .call =>
    match system.pending with
    | [] => .ok (system, [])
    | call :: rest => .ok (⟨call.apply system.dir, system.process, rest⟩, [])
  | .crash => .ok (⟨system.dir, none, []⟩, [])

/-- A machine without append only files. -/
def emptySystem : AofSystem := ⟨⟨[], none, none⟩, none, []⟩

end Redis.Aof

/- This file embeds the functions of `aof.c` that keep, write and read the manifest. -/
import Redis.Construction.Aof.Load
import Redis.Construction.SplitArgs

namespace Redis.Aof
open Foundation
open SplitArgs (charAt sdscatrepr sdsneedsrepr sdssplitargs)

inductive AofFileType where
  | base
  | hist
  | incr
  deriving DecidableEq, Repr

def AofFileType.char : AofFileType → UInt8
  | .base => 98
  | .hist => 104
  | .incr => 105

structure AofInfo where
  fileName : Sds
  fileSeq : Int
  fileType : AofFileType
  deriving DecidableEq, Repr

structure AofManifest where
  baseAofInfo : Option AofInfo
  incrAofList : List AofInfo
  historyAofList : List AofInfo
  currBaseFileSeq : Int
  currIncrFileSeq : Int
  dirty : Bool
  deriving DecidableEq, Repr

def aofManifestCreate : AofManifest := ⟨none, [], [], 0, 0, false⟩

/-- The part of an array before its terminator. -/
def cString (bytes : Sds) : Sds := bytes.takeWhile (· ≠ 0)

def pathIsBaseName (path : Sds) : Bool := 47 ∉ path ∧ 92 ∉ path

def isValidAOFfilename (val : Sds) : Bool := val ≠ [] ∧ pathIsBaseName val

/-- A value of `appendfilename` is a C string that the configuration accepts. -/
structure AofFilename where
  name : Sds
  terminated : 0 ∉ name
  valid : isValidAOFfilename name = true

def aofInfoFormat (buf : Sds) (ai : AofInfo) : Sds :=
  let filename := if sdsneedsrepr ai.fileName then sdscatrepr [] ai.fileName else ai.fileName
  buf ++ (ascii "file " ++ filename ++ ascii " seq " ++ signedDecimal ai.fileSeq ++ ascii " type " ++
    [ai.fileType.char, 10])

/-- The base file is the first, the incremental files are the last. -/
def getAofManifestAsString (am : AofManifest) : Sds :=
  let buf := match am.baseAofInfo with
    | some ai => aofInfoFormat [] ai
    | none => []
  let buf := am.historyAofList.foldl aofInfoFormat buf
  am.incrAofList.foldl aofInfoFormat buf

inductive ManifestError where
  | empty
  | tooLongLine
  | format
  | path
  | duplicateBase
  | nonMonotonic
  | unknownType
  | outOfFuel
  deriving DecidableEq, Repr

def ManifestError.message : ManifestError → String
  | .empty => "Found an empty AOF manifest"
  | .tooLongLine => "The AOF manifest file contains too long line"
  | .format => "Invalid AOF manifest file format"
  | .path => "File can't be a path, just a filename"
  | .duplicateBase => "Found duplicate base file information"
  | .nonMonotonic => "Found a non-monotonic sequence number"
  | .unknownType => "Unknown AOF file type"
  | .outOfFuel => ""

def manifestMaxLine : Nat := 1024

def sdstrim (s cset : Sds) : Sds := ((s.dropWhile (· ∈ cset)).reverse.dropWhile (· ∈ cset)).reverse

/-- The function `strcasecmp` finds no difference. -/
def sameIgnoringCase (first second : Sds) : Bool := (cString first).map tolower = (cString second).map tolower

def atoll (text : Sds) : Int := strtol (cString text)

/-- The record that is filled while a line is read. The value `none` stands for `NULL` and zero for what is missing. -/
structure ParsedInfo where
  fileName : Option Sds
  fileSeq : Int
  fileType : UInt8
  deriving DecidableEq, Repr

/-- The loop over the keys and values of a line. Other keys are skipped. -/
def parseFields : List Sds → ParsedInfo → Except ManifestError ParsedInfo
  | key :: value :: rest, ai =>
    if sameIgnoringCase key (ascii "file") then
      if pathIsBaseName (cString value) then parseFields rest { ai with fileName := some (cString value) }
      else .error .path
    else if sameIgnoringCase key (ascii "seq") then parseFields rest { ai with fileSeq := atoll value }
    else if sameIgnoringCase key (ascii "type") then parseFields rest { ai with fileType := charAt value 0 }
    else parseFields rest ai
  | _, ai => .ok ai

/-- One line of the file without its newline. -/
def parseLine (line : Sds) : Except ManifestError (Sds × Int × UInt8) :=
  if line = [] then .error .format
  else
    match sdssplitargs line with
    | none => .error .format
    | some argv =>
      if argv.length < 6 ∨ argv.length % 2 = 1 then .error .format
      else do
        let ai ← parseFields argv ⟨none, 0, 0⟩
        match ai.fileName with
        | none => .error .format
        | some fileName =>
          if ai.fileSeq = 0 ∨ ai.fileType = 0 then .error .format
          else return (fileName, ai.fileSeq, ai.fileType)

/-- The entry is added to the manifest. The number `maxseq` is the last one of an incremental file. -/
def addInfo (am : AofManifest) (maxseq : Int) (ai : Sds × Int × UInt8) : Except ManifestError (AofManifest × Int) :=
  let (fileName, fileSeq, fileType) := ai
  if fileType = AofFileType.base.char then
    if am.baseAofInfo.isSome then .error .duplicateBase
    else .ok ({ am with baseAofInfo := some ⟨fileName, fileSeq, .base⟩, currBaseFileSeq := fileSeq }, maxseq)
  else if fileType = AofFileType.hist.char then
    .ok ({ am with historyAofList := am.historyAofList ++ [⟨fileName, fileSeq, .hist⟩] }, maxseq)
  else if fileType = AofFileType.incr.char then
    if fileSeq ≤ maxseq then .error .nonMonotonic
    else .ok ({ am with
      incrAofList := am.incrAofList ++ [⟨fileName, fileSeq, .incr⟩]
      currIncrFileSeq := fileSeq }, fileSeq)
  else .error .unknownType

/-- The loop over the lines. Every iteration reads at least one byte. -/
def loadManifestLoop : Nat → Reader → Nat → AofManifest → Int → Except ManifestError AofManifest
  | 0, _, _, _, _ => .error .outOfFuel
  | fuel + 1, reader, linenum, am, maxseq =>
    match reader.fgets (manifestMaxLine + 1) with
    | (none, _) => if linenum = 0 then .error .empty else .ok am
    | (some buf, reader) =>
      if charAt buf 0 = 35 then loadManifestLoop fuel reader (linenum + 1) am maxseq
      else if 10 ∉ cString buf then .error .tooLongLine
      else do
        let ai ← parseLine (sdstrim (cString buf) (ascii " \t\r\n"))
        let (am, maxseq) ← addInfo am maxseq ai
        loadManifestLoop fuel reader (linenum + 1) am maxseq

/-- The function gets the contents of the file. -/
def aofLoadManifestFromFile (file : Sds) : Except ManifestError AofManifest :=
  loadManifestLoop (file.length + 1) ⟨file, 0, false⟩ 0 aofManifestCreate 0

section Update
variable (filename : AofFilename)

/-- The increment of a `long long`. -/
def incrementSeq (seq : Int) : Checked Int := if 2 ^ 63 - 1 ≤ seq then .error .signedOverflow else .ok (seq + 1)

def baseFileName (aofUseRdbPreamble : Bool) (seq : Int) : Sds :=
  filename.name ++ (ascii "." ++ signedDecimal seq ++ ascii ".base" ++
    if aofUseRdbPreamble then ascii ".rdb" else ascii ".aof")

def incrFileName (seq : Int) : Sds :=
  filename.name ++ (ascii "." ++ signedDecimal seq ++ ascii ".incr" ++ ascii ".aof")

/-- The base file that is there becomes a history file. -/
def markBaseAsHistory (am : AofManifest) : Checked AofManifest :=
  match am.baseAofInfo with
  | none => .ok am
  | some ai => do
      require .getNewBaseFileNameAndMarkPreAsHistory (ai.fileType = .base)
      return { am with historyAofList := { ai with fileType := .hist } :: am.historyAofList }

def getNewBaseFileNameAndMarkPreAsHistory (aofUseRdbPreamble : Bool) (am : AofManifest) : Checked AofManifest := do
  let am ← markBaseAsHistory am
  let seq ← incrementSeq am.currBaseFileSeq
  return { am with
    currBaseFileSeq := seq
    baseAofInfo := some ⟨baseFileName filename aofUseRdbPreamble seq, seq, .base⟩
    dirty := true }

def getNewIncrAofName (am : AofManifest) : Checked AofManifest := do
  let seq ← incrementSeq am.currIncrFileSeq
  return { am with
    currIncrFileSeq := seq
    incrAofList := am.incrAofList ++ [⟨incrFileName filename seq, seq, .incr⟩]
    dirty := true }

def getLastIncrAofName (am : AofManifest) : Checked AofManifest :=
  if am.incrAofList = [] then getNewIncrAofName filename am else .ok am

/-- The file that is written currently stays, if there is one. -/
def markRewrittenIncrAofAsHistory (aofFdOpen : Bool) (am : AofManifest) : Checked AofManifest :=
  if am.incrAofList = [] then .ok am
  else
    let moved := if aofFdOpen then am.incrAofList.dropLast else am.incrAofList
    let kept := am.incrAofList.drop moved.length
    do
      require .markRewrittenIncrAofAsHistory (∀ ai ∈ moved, ai.fileType = .incr)
      return { am with
        incrAofList := kept
        historyAofList := moved.map (fun ai => { ai with fileType := .hist }) ++ am.historyAofList
        dirty := true }

/-- The history files are removed from the manifest unless the garbage collection is disabled. -/
def aofDelHistoryFiles (aofDisableAutoGc : Bool) (am : AofManifest) : Checked AofManifest :=
  if aofDisableAutoGc ∨ am.historyAofList = [] then .ok am
  else do
    require .aofDelHistoryFiles (∀ ai ∈ am.historyAofList, ai.fileType = .hist)
    return { am with historyAofList := [], dirty := true }
end Update

section Store
variable (filename : AofFilename)

/-- The manifest of the running server, if it runs, and the manifest file. -/
structure ManifestStore where
  manifest : Option AofManifest
  file : Option Sds
  deriving DecidableEq, Repr

variable (store : ManifestStore) (am : AofManifest)

def persistAofManifest : ManifestStore :=
  if am.dirty then ⟨some { am with dirty := false }, some (getAofManifestAsString am)⟩
  else { store with manifest := some am }

/-- The ways in which the server changes its manifest. -/
inductive ManifestOp where
  /-- The server starts and loads the manifest. -/
  | aofLoadManifestFromDisk
  | aofUpgradePrepare
  | aofOpenIfNeededOnServerStart (aofUseRdbPreamble : Bool)
  /-- A rewrite is started while the append only file is on. -/
  | openNewIncrAofForAppend
  /-- A rewrite ends with success. -/
  | backgroundRewriteDoneHandler (aofUseRdbPreamble waitRewrite aofFdOpen aofDisableAutoGc : Bool)
  | aofDelHistoryFiles (aofDisableAutoGc : Bool)
  deriving DecidableEq, Repr

/-- The situations in which `loadAppendOnlyFiles` calls `aofUpgradePrepare`, without those about other files. -/
def upgradeNeeded : Bool := am.incrAofList = [] ∧ (am.baseAofInfo.all fun ai => ai.fileName = filename.name)

def forceBaseOnStart (aofUseRdbPreamble : Bool) (am : AofManifest) : Checked AofManifest :=
  if am.baseAofInfo = none ∧ am.incrAofList = [] then
    getNewBaseFileNameAndMarkPreAsHistory filename aofUseRdbPreamble am
  else .ok am

/-- The manifest that `aofOpenIfNeededOnServerStart` persists. -/
def openedOnStart (aofUseRdbPreamble : Bool) (am : AofManifest) : Checked AofManifest := do
  getLastIncrAofName filename (← forceBaseOnStart filename aofUseRdbPreamble am)

def nameTempIncr (waitRewrite : Bool) (am : AofManifest) : Checked AofManifest :=
  if waitRewrite then getNewIncrAofName filename am else .ok am

def rewrittenManifest (aofUseRdbPreamble waitRewrite aofFdOpen : Bool) (am : AofManifest) : Checked AofManifest := do
  let am ← getNewBaseFileNameAndMarkPreAsHistory filename aofUseRdbPreamble am
  let am ← nameTempIncr filename waitRewrite am
  markRewrittenIncrAofAsHistory aofFdOpen am

/-- A change of the manifest of the running server. -/
def updateManifest : ManifestOp → Checked ManifestStore
  | .aofLoadManifestFromDisk => .ok store
  | .aofUpgradePrepare =>
    if upgradeNeeded filename am then
      .ok (persistAofManifest store { am with
        baseAofInfo := some ⟨filename.name, 1, .base⟩
        currBaseFileSeq := 1
        dirty := true })
    else .ok store
  | .aofOpenIfNeededOnServerStart aofUseRdbPreamble => do
      return persistAofManifest store (← openedOnStart filename aofUseRdbPreamble am)
  | .openNewIncrAofForAppend => do
      return persistAofManifest store (← getNewIncrAofName filename am)
  | .backgroundRewriteDoneHandler aofUseRdbPreamble waitRewrite aofFdOpen aofDisableAutoGc => do
      let am ← rewrittenManifest filename aofUseRdbPreamble waitRewrite aofFdOpen am
      let store := persistAofManifest store am
      return persistAofManifest store (← Aof.aofDelHistoryFiles aofDisableAutoGc { am with dirty := false })
  | .aofDelHistoryFiles aofDisableAutoGc => do
      return persistAofManifest store (← Aof.aofDelHistoryFiles aofDisableAutoGc am)

/-- A server that cannot load the manifest ends. -/
def manifestStep (op : ManifestOp) : Checked (ManifestStore × Unit) :=
  if op = .aofLoadManifestFromDisk then
    match store.file with
    | none => .ok ({ store with manifest := some aofManifestCreate }, ())
    | some file => .ok ({ store with manifest := (aofLoadManifestFromFile file).toOption }, ())
  else
    match store.manifest with
    | none => .ok (store, ())
    | some am => do return (← updateManifest filename store am op, ())
end Store
end Redis.Aof

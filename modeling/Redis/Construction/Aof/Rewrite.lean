/-
This file embeds the background rewrite of `aof.c` and the loader of the files that the manifest names. The append
only file is on.
-/

import Redis.Construction.Aof.Load

namespace Redis.Aof
open Foundation

section Files
variable {Dataset : Type}

/-- The loop over the INCR files. Every file is loaded by a client of its own. -/
def loadIncrFiles (config : Config) (known : Sds → Bool) (rdbLoadRio : Sds → Option Nat) (aofLoadTruncated : Bool)
    (apply : Dataset → Nat × List Sds → Dataset) : AofStatus → Dataset → List Sds → AofStatus × Dataset
  | ret, dataset, [] => (ret, dataset)
  | _, dataset, file :: files =>
    let result := loadSingleAppendOnlyFile config known rdbLoadRio aofLoadTruncated file
    let dataset := result.client.executed.foldl apply dataset
    let ret := if result.status = .empty then .ok else result.status
    let ret := if ret = .truncated ∧ files ≠ [] then .failed else ret
    if ret = .failed then (ret, dataset)
    else loadIncrFiles config known rdbLoadRio aofLoadTruncated apply ret dataset files

/-- The files of a manifest. The BASE file is the dataset that its loading gives, and it is never empty. The status
`none` stands for `AOF_NOT_EXIST`. -/
def loadAppendOnlyFiles (config : Config) (known : Sds → Bool) (rdbLoadRio : Sds → Option Nat) (aofLoadTruncated : Bool)
    (apply : Dataset → Nat × List Sds → Dataset) (emptyDataset : Dataset) (base : Option Dataset) (incrs : List Sds) :
    Option AofStatus × Dataset :=
  if base.isNone ∧ incrs = [] then (none, emptyDataset)
  else if base.isNone ∧ ∀ file ∈ incrs, file = [] then (some .empty, emptyDataset)
  else
    let (ret, dataset) := loadIncrFiles config known rdbLoadRio aofLoadTruncated apply .ok (base.getD emptyDataset) incrs
    (some ret, dataset)
end Files

section Rewrite
variable {Dataset : Type}

/-- The server with its dataset, the files of the manifest before the open INCR file, and the dataset of the child
that rewrites. -/
structure System (Dataset : Type) where
  server : Server
  dataset : Dataset
  base : Option Dataset
  incrs : List Sds
  child : Option Dataset

/-- What the system answers at the start of a rewrite. -/
structure RewriteEnv where
  otherChild : Bool
  dirCreated : Bool
  flush : FlushEnv
  opens : Bool
  persists : Bool
  forks : Bool
  deriving DecidableEq, Repr

/-- The bytes of the file behind a descriptor. -/
def descriptorBytes (fd : Option OpenFile) : List Sds := (fd.map OpenFile.bytes).toList

/-- The new INCR file is opened before the fork, and the child has the dataset of that moment. -/
def rewriteAppendOnlyFileBackground (config : Config) (env : RewriteEnv) (system : System Dataset) :
    Except Halt (System Dataset) :=
  if system.child.isSome ∨ env.otherChild then return system
  else if !env.dirCreated then return system
  else do
    let server ← flushAppendOnlyFile config true env.flush { system.server with aofSelectedDb := none }
    match openNewIncrAofForAppend env.flush.unixtime env.opens env.persists server with
    | (server, false) => return { system with server := server }
    | (opened, true) =>
      let incrs := system.incrs ++ descriptorBytes server.aofFd
      if env.forks then
        return { system with
          server := { opened with childTypeAof := true }, incrs := incrs, child := some system.dataset }
      else return { system with server := opened, incrs := incrs }

/-- What the system answers at the end of a rewrite: the exit code of the child is zero, the BASE file is renamed, the
manifest is written, and the size of the BASE file. -/
structure DoneEnv where
  exited : Bool
  renames : Bool
  persists : Bool
  baseSize : Nat
  deriving DecidableEq, Repr

/-- A rewrite that succeeds puts its snapshot in the place of the BASE file and of all INCR files but the open one. -/
def backgroundRewriteDoneHandler (env : DoneEnv) (system : System Dataset) : System Dataset :=
  match system.child with
  | none => system
  | some snapshot =>
    if env.exited ∧ env.renames ∧ env.persists then
      { system with
        server := { system.server with
          childTypeAof := false
          aofCurrentSize := env.baseSize + system.server.aofLastIncrSize }
        base := some snapshot
        incrs := []
        child := none }
    else { system with server := { system.server with childTypeAof := false }, child := none }

/-- What can happen to the server. -/
inductive Event (config : Config) where
  | write (unixtime : Int64) (touchesArbitraryKeys : Bool) (ops : List (RedisOp config))
  | flush (force : Bool) (env : FlushEnv)
  | rewrite (env : RewriteEnv)
  | done (env : DoneEnv)

/-- The commands of an execution unit are executed and then fed to the file. -/
def System.step {config : Config} (apply : Dataset → Nat × List Sds → Dataset) (system : System Dataset) :
    Event config → Except Halt (System Dataset × Unit)
  | .write unixtime touchesArbitraryKeys ops => .ok ({ system with
      dataset := (ops.map fun op => (op.dbid.val, op.argv.args)).foldl apply system.dataset
      server := propagatePendingCommands unixtime touchesArbitraryKeys system.server ops }, ())
  | .flush force env => do
      let server ← flushAppendOnlyFile config force env system.server
      return ({ system with server := server }, ())
  | .rewrite env => do return (← rewriteAppendOnlyFileBackground config env system, ())
  | .done env => .ok (backgroundRewriteDoneHandler env system, ())

/-- The files of the manifest, with the bytes of the buffer behind the last one. -/
def System.files (system : System Dataset) : List Sds :=
  match system.server.aofFd with
  | some file => system.incrs ++ [file.bytes ++ system.server.aofBuf]
  | none => system.incrs
end Rewrite
end Redis.Aof

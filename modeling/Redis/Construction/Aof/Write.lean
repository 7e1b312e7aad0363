/-
This file embeds the functions of `aof.c` that encode commands and write them to the append only file.
-/

import Redis.Foundation.Decimal
import Redis.Foundation.PosixFile

namespace Redis.Aof
open Foundation

abbrev Sds := List UInt8

/-- The bytes of a text of ASCII characters. -/
def ascii (text : String) : Sds := text.toList.map fun char => UInt8.ofNat char.toNat

/-- The arguments of a command. Their number is an `int`, and a length fits in a `long`. -/
structure Argv where
  args : List Sds
  nonempty : args ≠ []
  argc : args.length < 2 ^ 31
  lens : ∀ s ∈ args, s.length < 2 ^ 63

inductive AofFsync where
  | no
  | everysec
  | always
  deriving DecidableEq, Repr

inductive AofState where
  | off
  | on
  | waitRewrite
  deriving DecidableEq, Repr

/-- The configuration that the append only file reads. The number of databases is an `int`. -/
structure Config where
  dbnum : Nat
  dbnumInt : dbnum < 2 ^ 31
  aofTimestampEnabled : Bool
  aofFsync : AofFsync
  aofNoFsyncOnRewrite : Bool

/-- The fields of `redisServer` for the append only file. The value `none` stands for `-1`. -/
structure Server where
  aofState : AofState
  childTypeAof : Bool
  aofBuf : Sds
  aofSelectedDb : Option Nat
  aofCurTimestamp : Int64
  aofFd : Option OpenFile
  aofCurrentSize : Nat
  aofLastIncrSize : Nat
  aofLastIncrFsyncOffset : Nat
  aofLastFsync : Int64
  aofFlushPostponedStart : Int64
  aofLastWriteStatus : Bool
  deriving DecidableEq

/-- The process ends with `exit(1)`. -/
inductive Halt where
  | exit
  deriving DecidableEq, Repr

variable (config : Config) (env : FlushEnv) (server : Server) (unixtime : Int64)

def crlf : Sds := [13, 10]

def bulk (o : Sds) : Sds := 36 :: (decimal o.length ++ crlf) ++ (o ++ crlf)

def catAppendOnlyGenericCommand (dst : Sds) (args : List Sds) : Sds :=
  dst ++ (42 :: (decimal args.length ++ crlf) ++ args.flatMap bulk)

/-- The annotation `#TS:${timestamp}` and the new timestamp. The argument `now` is the time of a forced one. -/
def genAofTimestampAnnotationIfNeeded (force : Option Int64) : Option Sds × Server :=
  if force.isSome ∨ server.aofCurTimestamp < unixtime then
    let timestamp := force.getD unixtime
    (some (ascii "#TS:" ++ signedDecimal timestamp.toInt ++ crlf), { server with aofCurTimestamp := timestamp })
  else (none, server)

def feedTimestamp : Sds × Server :=
  if config.aofTimestampEnabled then
    match genAofTimestampAnnotationIfNeeded server unixtime none with
    | (some ts, server) => (ts, server)
    | (none, server) => ([], server)
  else ([], server)

def feedSelect (dictid : Option Nat) : Sds × Server :=
  match dictid with
  | none => ([], server)
  | some db =>
    if server.aofSelectedDb = some db then ([], server)
    else
      let seldb := decimal db
      (ascii "*2\r\n$6\r\nSELECT\r\n$" ++ decimal seldb.length ++ crlf ++ seldb ++ crlf,
        { server with aofSelectedDb := some db })

/-- The buffer takes the commands when the file is open. -/
def Server.accepts : Bool := server.aofState = .on ∨ (server.aofState = .waitRewrite ∧ server.childTypeAof)

/-- The bytes that a command adds to the file. -/
def feedBuffer (server : Server) (dictid : Option Nat) (argv : Argv) : Sds × Server :=
  let (ts, server) := feedTimestamp config server unixtime
  let (select, server) := feedSelect server dictid
  (catAppendOnlyGenericCommand (ts ++ select) argv.args, server)

/-- The type of the database number is the assertion at the start of the function. -/
def feedAppendOnlyFile (server : Server) (dictid : Option (Fin config.dbnum)) (argv : Argv) : Server :=
  let (buf, server) := feedBuffer config unixtime server (dictid.map Fin.val) argv
  if server.accepts then { server with aofBuf := server.aofBuf ++ buf } else server

/-- The results of one `write` call. -/
inductive WriteResult where
  | wrote (count : Nat)
  | eintr
  | failed
  deriving DecidableEq, Repr

/-- The loop over `write` calls. A call writes at most what it is given, and the calls after the listed ones
write all of it. -/
def aofWrite : List WriteResult → OpenFile → Sds → Nat → OpenFile × Int
  | _, file, [], totwritten => (file, totwritten)
  | [], file, buf, totwritten => (file.write buf, (totwritten + buf.length : Nat))
  | .eintr :: rest, file, buf, totwritten => aofWrite rest file buf totwritten
  | .failed :: _, file, _, totwritten => (file, if totwritten ≠ 0 then totwritten else -1)
  | .wrote count :: rest, file, buf, totwritten =>
    let nwritten := min count buf.length
    aofWrite rest (file.write (buf.take nwritten)) (buf.drop nwritten) (totwritten + nwritten)

/-- What the system answers during one flush: the time, whether a background fsync or a child process is
active, and the results of the calls. -/
structure FlushEnv where
  unixtime : Int64
  aofFsyncInProgress : Bool
  hasActiveChildProcess : Bool
  writes : List WriteResult
  ftruncate : Bool
  redisFsync : Bool
  deriving DecidableEq, Repr

/-- The part after the label `try_fsync`. -/
def tryFsync (syncInProgress : Bool) (server : Server) : Except Halt Server :=
  if config.aofNoFsyncOnRewrite ∧ env.hasActiveChildProcess then return server
  else if config.aofFsync = .always then
    if env.redisFsync then
      return { server with aofLastIncrFsyncOffset := server.aofLastIncrSize, aofLastFsync := env.unixtime }
    else throw .exit
  else if config.aofFsync = .everysec ∧ env.unixtime > server.aofLastFsync then
    return { server with
      aofLastIncrFsyncOffset := if syncInProgress then server.aofLastIncrFsyncOffset else server.aofLastIncrSize
      aofLastFsync := env.unixtime }
  else return server

def writeBuffer : Option OpenFile × Int :=
  match server.aofFd with
  | some file =>
    let (file, nwritten) := aofWrite env.writes file server.aofBuf 0
    (some file, nwritten)
  | none => (none, -1)

/-- A short write is removed from the file if that is possible. The result is the new value of `nwritten`. -/
def undoShortWrite (nwritten : Int) : Server × Int :=
  if nwritten = -1 then (server, -1)
  else if env.ftruncate then
    ({ server with aofFd := server.aofFd.map fun file => file.truncate server.aofLastIncrSize }, -1)
  else (server, nwritten)

/-- The recovery from a failed write leaves data in the buffer. -/
def handleWriteError (nwritten : Int) : Except Halt Server :=
  let (server, nwritten) := undoShortWrite env server nwritten
  if config.aofFsync = .always then throw .exit
  else if nwritten > 0 then
    return { server with
      aofLastWriteStatus := false
      aofCurrentSize := server.aofCurrentSize + nwritten.toNat
      aofLastIncrSize := server.aofLastIncrSize + nwritten.toNat
      aofBuf := server.aofBuf.drop nwritten.toNat }
  else return { server with aofLastWriteStatus := false }

/-- The part of the flush from the write on. -/
def writeAndSync (syncInProgress : Bool) (server : Server) : Except Halt Server :=
  let (fd, nwritten) := writeBuffer env server
  let written := { server with aofFd := fd, aofFlushPostponedStart := 0 }
  if nwritten ≠ server.aofBuf.length then handleWriteError config env written nwritten
  else
    tryFsync config env syncInProgress { written with
      aofLastWriteStatus := true
      aofCurrentSize := server.aofCurrentSize + nwritten.toNat
      aofLastIncrSize := server.aofLastIncrSize + nwritten.toNat
      aofBuf := [] }

/-- A flush with an empty buffer can still have to sync. -/
def needsFsync : Bool :=
  (config.aofFsync = .everysec ∧ server.aofLastIncrFsyncOffset ≠ server.aofLastIncrSize ∧
      env.unixtime > server.aofLastFsync ∧ ¬env.aofFsyncInProgress) ∨
    (config.aofFsync = .always ∧ server.aofLastIncrFsyncOffset ≠ server.aofLastIncrSize)

/-- The flush waits while an fsync is running, but less than two seconds. -/
def postponesFlush : Bool :=
  server.aofFlushPostponedStart = 0 ∨ env.unixtime.toInt - server.aofFlushPostponedStart.toInt < 2

def flushAppendOnlyFile (force : Bool) (env : FlushEnv) (server : Server) : Except Halt Server :=
  if server.aofBuf = [] then
    if needsFsync config env server then tryFsync config env false server else return server
  else
    let syncInProgress := decide (config.aofFsync = .everysec) && env.aofFsyncInProgress
    if syncInProgress ∧ ¬force ∧ postponesFlush env server then
      return { server with
        aofFlushPostponedStart :=
          if server.aofFlushPostponedStart = 0 then env.unixtime else server.aofFlushPostponedStart }
    else writeAndSync config env syncInProgress server

/-- The arguments are the results of opening the file and of writing the manifest. The new file is not opened
with `O_APPEND`. The result is false for `C_ERR`. -/
def openNewIncrAofForAppend (opens persists : Bool) (server : Server) : Server × Bool :=
  if server.aofState = .off then (server, true)
  else if !opens then (server, false)
  else if server.aofState ≠ .waitRewrite ∧ !persists then (server, false)
  else
    ({ server with
      aofLastFsync := if server.aofFd.isSome then unixtime else server.aofLastFsync
      aofFd := some ⟨[], 0, false⟩
      aofLastIncrSize := 0
      aofLastIncrFsyncOffset := 0 }, true)

/-- The calls that write to the file. -/
inductive Call (config : Config) where
  | feed (unixtime : Int64) (dictid : Option (Fin config.dbnum)) (argv : Argv)
  | flush (force : Bool) (env : FlushEnv)

def call {config : Config} (server : Server) : Call config → Except Halt (Server × Unit)
  | .feed unixtime dictid argv => .ok (feedAppendOnlyFile config unixtime server dictid argv, ())
  | .flush force env => do return (← flushAppendOnlyFile config force env server, ())

structure Feed (config : Config) where
  unixtime : Int64
  dictid : Option (Fin config.dbnum)
  argv : Argv

def feedAll {config : Config} (server : Server) (feeds : List (Feed config)) : Server :=
  feeds.foldl (fun server feed => feedAppendOnlyFile config feed.unixtime server feed.dictid feed.argv) server

/-- The shared objects of the server. -/
def multiArgv : Argv := ⟨[ascii "MULTI"], by decide, by decide, by decide⟩

def execArgv : Argv := ⟨[ascii "EXEC"], by decide, by decide, by decide⟩

/-- One operation of `also_propagate`. -/
structure RedisOp (config : Config) where
  dbid : Fin config.dbnum
  argv : Argv

/-- The operations of an execution unit are fed to the file, several of them as a transaction. The argument
`touchesArbitraryKeys` is the flag of the command that was run directly. -/
def propagatePendingCommands {config : Config} (unixtime : Int64) (touchesArbitraryKeys : Bool) (server : Server)
    (ops : List (RedisOp config)) : Server :=
  if ops = [] then server
  else
    let transaction := decide (ops.length > 1) && !touchesArbitraryKeys
    let server := if transaction then feedAll server [(⟨unixtime, none, multiArgv⟩ : Feed config)] else server
    let server := feedAll server (ops.map fun op => (⟨unixtime, some op.dbid, op.argv⟩ : Feed config))
    if transaction then feedAll server [(⟨unixtime, none, execArgv⟩ : Feed config)] else server

end Redis.Aof

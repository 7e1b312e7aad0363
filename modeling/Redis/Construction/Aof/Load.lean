/-
This file embeds the loader of `aof.c` for one append only file.
-/

import Redis.Construction.Aof.Write
import Redis.Construction.Ctype
import Redis.Construction.Listpack.Encoding

namespace Redis.Aof
open Foundation

def parseSign : Sds → Bool × Sds
  | 45 :: rest => (true, rest)
  | 43 :: rest => (false, rest)
  | text => (false, text)

/-- The function `strtol` in base ten stops at the first character that is no digit. -/
def strtol (text : Sds) : Int :=
  let (negative, text) := parseSign (text.dropWhile isspace)
  let value : Int := decimalValue 0 (text.takeWhile isdigit)
  if negative then max (-value) (-2 ^ 63) else min value (2 ^ 63 - 1)

/-- The result of `strtol` as an `int`. -/
def atoi (text : Sds) : Int := (strtol text + 2 ^ 31) % 2 ^ 32 - 2 ^ 31

variable (config : Config) (client : FakeClient)

inductive Proc where
  | multiCommand
  | execCommand
  | selectCommand
  | other
  deriving DecidableEq, Repr

/-- The command table is searched without regard to case. The argument tells the other known names. -/
def lookupCommand (known : Sds → Bool) (argv : List Sds) : Option Proc :=
  let name := (argv.headD []).map tolower
  if name = ascii "multi" then some .multiCommand
  else if name = ascii "exec" then some .execCommand
  else if name = ascii "select" then some .selectCommand
  else if known name then some .other
  else none

/-- The fake client with the commands that it has executed and their databases. -/
structure FakeClient where
  multi : Bool
  mstate : List (Proc × List Sds)
  db : Nat
  executed : List (Nat × List Sds)
  deriving DecidableEq, Repr

def createAOFClient : FakeClient := ⟨false, [], 0, []⟩

/-- The number is read by `string2ll`, which has the body of `lpStringToInt64`. -/
def selectCommand (argv : List Sds) : FakeClient :=
  match (argv[1]?).bind Listpack.lpStringToInt64 with
  | some id => if 0 ≤ id ∧ id < config.dbnum then { client with db := id.toNat } else client
  | none => client

/-- The commands that can be queued. A nested `MULTI` is an error. -/
def callQueued (command : Proc × List Sds) : FakeClient :=
  match command.1 with
  | .multiCommand => client
  | .execCommand => client
  | .selectCommand => selectCommand config client command.2
  | .other => { client with executed := client.executed ++ [(client.db, command.2)] }

def execCommand : FakeClient :=
  if !client.multi then client
  else { client.mstate.foldl (callQueued config) client with multi := false, mstate := [] }

/-- A command runs in the fake client or is queued. -/
def runCommand (cmd : Proc) (argv : List Sds) : FakeClient :=
  if client.multi ∧ cmd ≠ .execCommand then { client with mstate := client.mstate ++ [(cmd, argv)] }
  else
    match cmd with
    | .multiCommand => { client with multi := true }
    | .execCommand => execCommand config client
    | .selectCommand => selectCommand config client argv
    | .other => { client with executed := client.executed ++ [(client.db, argv)] }

def aofAnnotationLineMaxLen : Nat := 1024

inductive LoadExit where
  | endOfFile
  | readerr
  | fmterr
  | unknownCommand
  | outOfFuel
  deriving DecidableEq, Repr

/-- The string of an argument and the end of its line. A string of length zero is not read. -/
def readPayload (len : Nat) (reader : Reader) : Except LoadExit Sds × Reader :=
  match if len = 0 then (some [], reader) else reader.fread len with
  | (none, reader) => (.error .readerr, reader)
  | (some arg, reader) =>
    match reader.fread 2 with
    | (none, reader) => (.error .readerr, reader)
    | (some _, reader) => (.ok arg, reader)

/-- One argument with its length line. The length is converted to an `unsigned long`. -/
def readArg (reader : Reader) : Except LoadExit Sds × Reader :=
  match reader.fgets aofAnnotationLineMaxLen with
  | (none, reader) => (.error .readerr, reader)
  | (some buf, reader) =>
    if buf.head? ≠ some 36 then (.error .fmterr, reader)
    else readPayload (strtol buf.tail % 2 ^ 64).toNat reader

def readArgs : Nat → Reader → Except LoadExit (List Sds) × Reader
  | 0, reader => (.ok [], reader)
  | argc + 1, reader =>
    match readArg reader with
    | (.error exit, reader) => (.error exit, reader)
    | (.ok arg, reader) =>
      match readArgs argc reader with
      | (.error exit, reader) => (.error exit, reader)
      | (.ok args, reader) => (.ok (arg :: args), reader)

/-- One iteration reads an annotation or a command. -/
def readItem (reader : Reader) : Except LoadExit (Option (List Sds)) × Reader :=
  match reader.fgets aofAnnotationLineMaxLen with
  | (none, reader) => (.error .endOfFile, reader)
  | (some buf, reader) =>
    if buf.head? = some 35 then (.ok none, reader)
    else if buf.head? ≠ some 42 then (.error .fmterr, reader)
    else if buf.tail.headD 0 = 0 then (.error .readerr, reader)
    else if atoi buf.tail < 1 then (.error .fmterr, reader)
    else
      match readArgs (atoi buf.tail).toNat reader with
      | (.error exit, reader) => (.error exit, reader)
      | (.ok argv, reader) => (.ok (some argv), reader)

structure LoadState where
  reader : Reader
  client : FakeClient
  validUpTo : Nat
  validBeforeMulti : Nat
  deriving DecidableEq, Repr

/-- The loop over the file. Every iteration reads at least one byte. -/
def loadLoop (config : Config) (known : Sds → Bool) (aofLoadTruncated : Bool) : Nat → LoadState → LoadExit × LoadState
  | 0, state => (.outOfFuel, state)
  | fuel + 1, state =>
    match readItem state.reader with
    | (.error exit, reader) => (exit, { state with reader := reader })
    | (.ok none, reader) => loadLoop config known aofLoadTruncated fuel { state with reader := reader }
    | (.ok (some argv), reader) =>
      match lookupCommand known argv with
      | none => (.unknownCommand, { state with reader := reader })
      | some cmd =>
        loadLoop config known aofLoadTruncated fuel
          { reader := reader
            client := runCommand config state.client cmd argv
            validUpTo := if aofLoadTruncated then reader.position else state.validUpTo
            validBeforeMulti := if cmd = .multiCommand then state.validUpTo else state.validBeforeMulti }

inductive AofStatus where
  | ok
  | empty
  | failed
  | truncated
  deriving DecidableEq, Repr

/-- The status, the file that is left on disk, and the client with what was executed. -/
structure LoadResult where
  status : AofStatus
  file : Sds
  client : FakeClient
  deriving DecidableEq, Repr

/-- The part after the label `uxeof`. The calls of the file system succeed. -/
def unexpectedEnd (aofLoadTruncated : Bool) (file : Sds) (client : FakeClient) (validUpTo : Nat) : LoadResult :=
  if aofLoadTruncated then ⟨.truncated, file.take validUpTo, client⟩ else ⟨.failed, file, client⟩

def finishLoad (aofLoadTruncated : Bool) (file : Sds) : LoadExit × LoadState → LoadResult
  | (.endOfFile, state) =>
    if state.client.multi then unexpectedEnd aofLoadTruncated file state.client state.validBeforeMulti
    else ⟨.ok, file, state.client⟩
  | (.readerr, state) =>
    if state.reader.eof then unexpectedEnd aofLoadTruncated file state.client state.validUpTo
    else ⟨.failed, file, state.client⟩
  | (.fmterr, state) => ⟨.failed, file, state.client⟩
  | (.unknownCommand, state) => ⟨.failed, file, state.client⟩
  | (.outOfFuel, state) => ⟨.failed, file, state.client⟩

/-- The function gets the contents of the file. The argument `rdbLoadRio` gives the length of an RDB preamble
that it loads, or nothing. -/
def loadSingleAppendOnlyFile (known : Sds → Bool) (rdbLoadRio : Sds → Option Nat)
    (aofLoadTruncated : Bool) (file : Sds) : LoadResult :=
  if file = [] then ⟨.empty, file, createAOFClient⟩
  else
    match if file.take 5 = ascii "REDIS" then rdbLoadRio file else some 0 with
    | none => ⟨.failed, file, createAOFClient⟩
    | some start =>
      finishLoad aofLoadTruncated file (loadLoop config known aofLoadTruncated (file.length + 1)
        ⟨⟨file.drop start, start, false⟩, createAOFClient, 0, 0⟩)

end Redis.Aof

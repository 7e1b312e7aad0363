/- This file models `WATCH` and the transactions of `multi.c` over the key space functions of `db.c` on a master. -/
import Redis.Construction.Fault

namespace Redis.Watch

/-- A key's object is known by the number of the modification that left it as it is. -/
structure Entry where
  version : Nat
  expire : Option Nat
  deriving DecidableEq, Repr

structure ExpireFlags where
  nx : Bool
  xx : Bool
  gt : Bool
  lt : Bool
  deriving DecidableEq, Repr

/-- What a command does to the object it has looked up for writing. -/
inductive Effect where
  | unchanged
  | write
  | remove
  deriving DecidableEq, Repr

/-- The commands, by the key space functions they call. -/
inductive Command (Key : Type) where
  /-- The commands that only read, such as `GET`. -/
  | read (key : Key)
  | set (key : Key) (nx xx keepTtl : Bool) (expire : Option Nat)
  /-- The commands that change an object in place, create it, or delete it when it gets empty. -/
  | update (key : Key) (effect : Effect)
  /-- The commands with an empty result to store, such as `SINTERSTORE`. -/
  | storeEmpty (key : Key)
  | del (key : Key)
  | expire (key : Key) (when : Int) (flags : ExpireFlags)
  | persist (key : Key)
  | restore (key : Key) (ttl : Nat) (absttl replace valid : Bool)
  | rename (source target : Key) (nx : Bool)
  | move (key : Key) (target : Nat)
  | copy (source target : Key) (db : Nat) (replace : Bool)
  /-- `XSETID`, `XACK`, `XCLAIM`, `XREADGROUP` and the subcommands of `XGROUP` on a stream that exists. -/
  | streamMetadata (key : Key) (effect : Bool)
  | flushdb
  | flushall
  | swapdb (first second : Nat)
  | select (db : Nat)
  | unwatch
  deriving DecidableEq, Repr

structure WatchedKey (Key : Type) where
  client : Nat
  db : Nat
  key : Key
  /-- The key was already expired when it was watched. -/
  expired : Bool
  deriving DecidableEq, Repr

structure Client (Key : Type) where
  db : Nat
  multi : Bool
  dirtyCas : Bool
  dirtyExec : Bool
  queue : List (Command Key)
  deriving DecidableEq, Repr

/-- The watched keys are listed in the order of their creation, so the list of a key and the list of a client are
the entries with that key or client. -/
structure Server (Key : Type) where
  now : Nat
  dbnum : Nat
  modifications : Nat
  dict : Nat → Key → Option Entry
  watched : List (WatchedKey Key)
  client : Nat → Client Key
  /-- The transaction that is executed and the commands that are left. -/
  executing : Option (Nat × List (Command Key))

variable {Key : Type} [DecidableEq Key] (s : Server Key)

def setClient (c : Nat) (client : Client Key) : Server Key := { s with client := Function.update s.client c client }

def setEntry (db : Nat) (key : Key) (entry : Option Entry) : Server Key :=
  { s with dict := Function.update s.dict db (Function.update (s.dict db) key entry) }

/-- A modification leaves the object in a new state. -/
def modifyEntry (db : Nat) (key : Key) (expire : Option Nat) : Server Key :=
  { setEntry s db key (some ⟨s.modifications, expire⟩) with modifications := s.modifications + 1 }

def getExpire (db : Nat) (key : Key) : Option Nat := (s.dict db key).bind Entry.expire

def keyIsExpired (db : Nat) (key : Key) : Bool :=
  match getExpire s db key with
  | none => false
  | some when => when < s.now

section Watched
variable (c : Nat)

/-- To clear the dirty flag is up to the caller. -/
def unwatchAllKeys : Server Key := { s with watched := s.watched.filter fun wk => wk.client ≠ c }

def isWatchedKeyExpired : Bool :=
  (s.watched.filter fun wk => wk.client = c).any fun wk => !wk.expired && keyIsExpired s wk.db wk.key

def setDirtyCas : Server Key := setClient s c { s.client c with dirtyCas := true }

/-- The flag of one entry is set or cleared. -/
def setExpired (entry : WatchedKey Key) (expired : Bool) : Server Key :=
  { s with watched := s.watched.map fun wk => if wk = entry then { wk with expired } else wk }

/-- The loop of `touchWatchedKey`. A client has one entry for a key, so the entries that are left stay linked. -/
def touchClients (db : Nat) (key : Key) : List (WatchedKey Key) → Server Key → Server Key
  | [], s => s
  | wk :: rest, s =>
    if wk.expired then
      if s.dict db key = none then touchClients db key rest (setExpired s wk false) else s
    else touchClients db key rest (unwatchAllKeys (setDirtyCas s wk.client) wk.client)

def touchWatchedKey (db : Nat) (key : Key) : Server Key :=
  touchClients db key (s.watched.filter fun wk => wk.db = db ∧ wk.key = key) s

def signalModifiedKey (db : Nat) (key : Key) : Server Key := touchWatchedKey s db key

/-- What a flush or a swap does to one watched key. -/
inductive Verdict where
  | ignore
  | flag (expired : Bool)
  | dirty
  deriving DecidableEq, Repr

def flushVerdict (emptied : Nat) (replacedWith : Option Nat) (wk : WatchedKey Key) : Verdict :=
  let existsInEmptied := (s.dict emptied wk.key).isSome
  let existsInReplaced := replacedWith.any fun db => (s.dict db wk.key).isSome
  let expiredInReplaced := replacedWith.any fun db => keyIsExpired s db wk.key
  if existsInEmptied || existsInReplaced then
    if wk.expired then
      if !existsInReplaced then .flag false
      else if expiredInReplaced then .ignore
      else .dirty
    else if !existsInEmptied && expiredInReplaced then .flag true
    else .dirty
  else .ignore

/-- Each entry of the database gets its own verdict; a dirty client keeps its entries. -/
def touchAllWatchedKeysInDb (emptied : Nat) (replacedWith : Option Nat) : Server Key :=
  let verdict wk := if wk.db = emptied then flushVerdict s emptied replacedWith wk else .ignore
  { s with
    watched := s.watched.map fun wk =>
      match verdict wk with
      | .flag expired => { wk with expired }
      | _ => wk
    client := fun c =>
      if s.watched.any fun wk => wk.client = c ∧ verdict wk = .dirty then { s.client c with dirtyCas := true }
      else s.client c }
end Watched

section KeySpace
variable (db : Nat) (key : Key)

/-- The source asserts that the key is absent: each caller has looked it up for writing or deleted it. -/
def dbAdd : Server Key := modifyEntry s db key none

/-- The expire of an overwritten key stays. -/
def dbSetValue : Server Key := modifyEntry s db key (getExpire s db key)

def setExpire (when : Nat) : Server Key := modifyEntry s db key (some when)

def removeExpire : Server Key := if (getExpire s db key).isSome then modifyEntry s db key none else s

def dbDelete : Server Key := setEntry s db key none

def deleteExpiredKeyAndPropagate : Server Key := signalModifiedKey (dbDelete s db key) db key

def expireIfNeeded : Server Key := if keyIsExpired s db key then deleteExpiredKeyAndPropagate s db key else s

/-- Lookups for reading and for writing both delete an expired key on a master. -/
def lookupKey : Server Key × Bool :=
  let s := expireIfNeeded s db key
  (s, (s.dict db key).isSome)

def setKey (found keepTtl : Bool) : Server Key :=
  let s := if found then dbSetValue s db key else dbAdd s db key
  let s := if keepTtl then s else removeExpire s db key
  signalModifiedKey s db key

def deleteAndSignal : Server Key := if (s.dict db key).isSome then signalModifiedKey (dbDelete s db key) db key else s

def checkAlreadyExpired (when : Int) : Bool := when ≤ s.now
end KeySpace

section Commands
variable (db : Nat) (key : Key)

def setGenericCommand (nx xx keepTtl : Bool) (expire : Option Nat) : Server Key :=
  let (s, found) := lookupKey s db key
  if (nx && found) || (xx && !found) then s
  else
    let s := setKey s db key found (keepTtl || expire.isSome)
    match expire with
    | some milliseconds => setExpire s db key milliseconds
    | none => s

def updateCommand (effect : Effect) : Server Key :=
  let (s, found) := lookupKey s db key
  match effect with
  | .unchanged => s
  | .write => signalModifiedKey (if found then dbSetValue s db key else dbAdd s db key) db key
  | .remove => deleteAndSignal s db key

def delGenericCommand : Server Key := deleteAndSignal (expireIfNeeded s db key) db key

/-- The options of `EXPIRE` compare the new time with the current one. -/
def expireAllowed (current : Option Nat) (when : Int) (flags : ExpireFlags) : Bool :=
  !(flags.nx && current.isSome) && !(flags.xx && current.isNone) &&
    !(flags.gt && current.all fun time => when ≤ time) && !(flags.lt && current.any fun time => time ≤ when)

def expireGenericCommand (when : Int) (flags : ExpireFlags) : Server Key :=
  let (s, found) := lookupKey s db key
  if !found then s
  else if !expireAllowed (getExpire s db key) when flags then s
  else if checkAlreadyExpired s when then signalModifiedKey (dbDelete s db key) db key
  else signalModifiedKey (setExpire s db key when.toNat) db key

def persistCommand : Server Key :=
  let (s, found) := lookupKey s db key
  if found && (getExpire s db key).isSome then signalModifiedKey (removeExpire s db key) db key else s

/-- The part of `restoreCommand` after the payload was read. -/
def restoreKey (ttl : Nat) (absttl replace : Bool) : Server Key :=
  let deleted := replace && (s.dict db key).isSome
  let s := if replace then dbDelete s db key else s
  let ttl := if ttl ≠ 0 ∧ !absttl then ttl + s.now else ttl
  if ttl ≠ 0 ∧ checkAlreadyExpired s ttl then
    if deleted then signalModifiedKey s db key else s
  else
    let s := dbAdd s db key
    let s := if ttl ≠ 0 then setExpire s db key ttl else s
    signalModifiedKey s db key

def restoreCommand (ttl : Nat) (absttl replace valid : Bool) : Server Key :=
  if replace then
    if valid then restoreKey s db key ttl absttl true else s
  else
    let (s, found) := lookupKey s db key
    if found || !valid then s else restoreKey s db key ttl absttl false

/-- An added key takes over the expire of its source. -/
def addWithExpire (target : Nat) (key : Key) (expire : Option Nat) : Server Key :=
  let s := dbAdd s target key
  match expire with
  | some when => setExpire s target key when
  | none => s

def renameGenericCommand (source target : Key) (nx : Bool) : Server Key :=
  let (s, found) := lookupKey s db source
  if !found || source = target then s
  else
    let expire := getExpire s db source
    let (s, occupied) := lookupKey s db target
    if occupied && nx then s
    else
      let s := if occupied then dbDelete s db target else s
      let s := addWithExpire s db target expire
      let s := dbDelete s db source
      signalModifiedKey (signalModifiedKey s db source) db target

def moveCommand (target : Nat) : Server Key :=
  if s.dbnum ≤ target ∨ target = db then s
  else
    let (s, found) := lookupKey s db key
    if !found then s
    else
      let expire := getExpire s db key
      let (s, occupied) := lookupKey s target key
      if occupied then s
      else
        let s := addWithExpire s target key expire
        let s := dbDelete s db key
        signalModifiedKey (signalModifiedKey s db key) target key

def copyCommand (source target : Key) (targetDb : Nat) (replace : Bool) : Server Key :=
  if s.dbnum ≤ targetDb ∨ (targetDb = db ∧ source = target) then s
  else
    let (s, found) := lookupKey s db source
    if !found then s
    else
      let expire := getExpire s db source
      let (s, occupied) := lookupKey s targetDb target
      if occupied && !replace then s
      else
        let s := if occupied then dbDelete s targetDb target else s
        signalModifiedKey (addWithExpire s targetDb target expire) targetDb target

/-- These commands change the stream without calling `signalModifiedKey`. -/
def streamMetadataCommand (effect : Bool) : Server Key :=
  let (s, found) := lookupKey s db key
  if found && effect then dbSetValue s db key else s

def emptyDb : Server Key :=
  let s := touchAllWatchedKeysInDb s db none
  { s with dict := Function.update s.dict db fun _ => none }

/-- Every database is signalled before the first one is emptied. -/
def emptyAll : Server Key :=
  let s := (List.range s.dbnum).foldl (fun s db => touchAllWatchedKeysInDb s db none) s
  { s with dict := fun db => if db < s.dbnum then fun _ => none else s.dict db }

def dbSwapDatabases (first second : Nat) : Server Key :=
  if s.dbnum ≤ first ∨ s.dbnum ≤ second ∨ first = second then s
  else
    let s := touchAllWatchedKeysInDb s first (some second)
    let s := touchAllWatchedKeysInDb s second (some first)
    { s with dict := Function.update (Function.update s.dict first (s.dict second)) second (s.dict first) }
end Commands

def unwatchCommand (c : Nat) : Server Key :=
  let s := unwatchAllKeys s c
  setClient s c { s.client c with dirtyCas := false }

/-- The command procedure, called at once or by `EXEC`. -/
def call (c : Nat) (command : Command Key) : Server Key :=
  let db := (s.client c).db
  match command with
  | .read key => (lookupKey s db key).1
  | .set key nx xx keepTtl expire => setGenericCommand s db key nx xx keepTtl expire
  | .update key effect => updateCommand s db key effect
  | .storeEmpty key => deleteAndSignal s db key
  | .del key => delGenericCommand s db key
  | .expire key when flags => expireGenericCommand s db key when flags
  | .persist key => persistCommand s db key
  | .restore key ttl absttl replace valid => restoreCommand s db key ttl absttl replace valid
  | .rename source target nx => renameGenericCommand s db source target nx
  | .move key target => moveCommand s db key target
  | .copy source target targetDb replace => copyCommand s db source target targetDb replace
  | .streamMetadata key effect => streamMetadataCommand s db key effect
  | .flushdb => emptyDb s db
  | .flushall => emptyAll s
  | .swapdb first second => dbSwapDatabases s first second
  | .select target => if target < s.dbnum then setClient s c { s.client c with db := target } else s
  | .unwatch => unwatchCommand s c

section Transactions
inductive Reply where
  | none
  | ok
  | error
  | queued
  | execAbort
  | nil
  | array (count : Nat)
  deriving DecidableEq, Repr

variable (c : Nat)

def watchForKey (key : Key) : Server Key :=
  let db := (s.client c).db
  if s.watched.any fun wk => wk.client = c ∧ wk.db = db ∧ wk.key = key then s
  else { s with watched := s.watched ++ [⟨c, db, key, keyIsExpired s db key⟩] }

def watchCommand (keys : List Key) : Server Key × Reply :=
  if (s.client c).multi then (s, .error)
  else if (s.client c).dirtyCas then (s, .ok)
  else (keys.foldl (fun s key => watchForKey s c key) s, .ok)

def discardTransaction : Server Key :=
  unwatchAllKeys (setClient s c { s.client c with multi := false, dirtyCas := false, dirtyExec := false, queue := [] }) c

def multiCommand : Server Key × Reply :=
  if (s.client c).multi then (s, .error) else (setClient s c { s.client c with multi := true }, .ok)

def discardCommand : Server Key × Reply := if (s.client c).multi then (discardTransaction s c, .ok) else (s, .error)

/-- A transaction that is already aborted keeps no more commands. -/
def queueMultiCommand (command : Command Key) : Server Key :=
  if (s.client c).dirtyCas || (s.client c).dirtyExec then s
  else setClient s c { s.client c with queue := (s.client c).queue ++ [command] }

/-- A command that is rejected while it is queued. -/
def flagTransaction : Server Key :=
  if (s.client c).multi then setClient s c { s.client c with dirtyExec := true } else s

/-- The start of `execCommand`, up to its loop over the queued commands. -/
def execCommand : Server Key × Reply :=
  if !(s.client c).multi then (s, .error)
  else
    let s := if isWatchedKeyExpired s c then setDirtyCas s c else s
    if (s.client c).dirtyCas || (s.client c).dirtyExec then
      (discardTransaction s c, if (s.client c).dirtyExec then .execAbort else .nil)
    else
      ({ unwatchAllKeys s c with executing := some (c, (s.client c).queue) }, .array (s.client c).queue.length)

/-- One round of the loop of `execCommand`, or its end. -/
def execNext : Server Key :=
  match s.executing with
  | none => s
  | some (c, []) => { discardTransaction s c with executing := none }
  | some (c, command :: rest) => { call s c command with executing := some (c, rest) }

def processCommand (command : Command Key) : Server Key × Reply :=
  if (s.client c).multi then (queueMultiCommand s c command, .queued) else (call s c command, .none)
end Transactions

/-- The actions of the clients and of the server. -/
inductive Event (Key : Type) where
  | tick (milliseconds : Nat)
  | activeExpire (db : Nat) (key : Key)
  | evict (db : Nat) (key : Key)
  | watch (client : Nat) (keys : List Key)
  | multi (client : Nat)
  | discard (client : Nat)
  | exec (client : Nat)
  | command (client : Nat) (command : Command Key)
  | reject (client : Nat)
  | execNext
  deriving DecidableEq, Repr

/-- An event outside a transaction's execution. -/
def serve : Event Key → Server Key × Reply
  | .tick milliseconds => ({ s with now := s.now + milliseconds }, .none)
  | .activeExpire db key => (expireIfNeeded s db key, .none)
  | .evict db key => (deleteAndSignal s db key, .none)
  | .watch c keys => watchCommand s c keys
  | .multi c => multiCommand s c
  | .discard c => discardCommand s c
  | .exec c => execCommand s c
  | .command c command => processCommand s c command
  | .reject c => (flagTransaction s c, .error)
  | .execNext => (s, .none)

/-- The commands of a transaction run without others in between. -/
def step (event : Event Key) : Checked (Server Key × Reply) :=
  if s.executing.isSome then
    .ok (if event = .execNext then execNext s else s, .none)
  else .ok (serve s event)

def initServer (dbnum : Nat) : Server Key where
  now := 0
  dbnum := dbnum
  modifications := 0
  dict := fun _ _ => none
  watched := []
  client := fun _ => ⟨0, false, false, false, []⟩
  executing := none

end Redis.Watch

/-
This file embeds `getNodeByQuery` of `cluster.c`, which decides where a request with keys is executed,
and the client in `redis-cli.c` that follows its redirections.
-/

import Redis.Construction.Cluster.State

namespace Redis.Cluster

inductive ClusterRedir where
  | none
  | crossSlot
  | unstable
  | ask
  | moved
  | downState
  | downUnbound
  | downRoState
  deriving DecidableEq, Repr

/-- The procedures that the function knows. -/
inductive CommandProc where
  | execCommand
  | migrateCommand
  | other
  deriving DecidableEq, Repr

/-- An argument that `getKeysFromCommand` finds. The flag `CMD_KEY_NOT_KEY` marks a shard channel. -/
structure KeyReference (Key : Type) where
  name : Key
  notKey : Bool

/-- A command with the result of `doesCommandHaveChannelsWithFlags` for publications and subscriptions. -/
structure MultiCmd (Key : Type) where
  channels : Bool
  keys : List (KeyReference Key)

/-- The flags of a client, of its current command, and of its queued commands. -/
structure QueryClient (Key : Type) where
  proc : CommandProc
  cmd : MultiCmd Key
  cmdWrite : Bool
  cmdAsking : Bool
  multi : Bool
  asking : Bool
  readonly : Bool
  mstate : List (MultiCmd Key)
  mstateWrite : Bool

/-- The field `present` tells which keys of the database are found. -/
structure QueryServer (Name Key : Type) where
  cluster : ClusterState Name
  stateOk : Bool
  noRedirection : Bool
  allowPubsubshardWhenDown : Bool
  allowReadsWhenDown : Bool
  keyHashSlot : Key → Slot
  present : Key → Bool

/-- The local variables of the loops. -/
structure QueryScan (Name Key : Type) where
  n : Option Name
  firstkey : Option Key
  slot : Slot
  multipleKeys : Bool
  migratingSlot : Bool
  importingSlot : Bool
  pubsubshardIncluded : Bool
  missingKeys : Nat
  existingKeys : Nat

structure QueryResult (Name : Type) where
  node : Option Name
  errorCode : ClusterRedir
  hashslot : Option Slot
  deriving DecidableEq, Repr

variable {Name Key : Type} [DecidableEq Name] [DecidableEq Key]

section Scan
variable (server : QueryServer Name Key) (scan : QueryScan Name Key)

/-- The lookup of a key when its slot is open. -/
def countKey (name : Key) : QueryScan Name Key :=
  if (scan.migratingSlot || scan.importingSlot) && !scan.pubsubshardIncluded then
    if server.present name then { scan with existingKeys := scan.existingKeys + 1 }
    else { scan with missingKeys := scan.missingKeys + 1 }
  else scan

def scanKey (name : Key) : Except ClusterRedir (QueryScan Name Key) :=
  let thisslot := server.keyHashSlot name
  match scan.firstkey with
  | none =>
    match server.cluster.slots thisslot with
    | none => .error .downUnbound
    | some n =>
      let migrating := decide (n = server.cluster.myself) && (server.cluster.migratingSlotsTo thisslot).isSome
      .ok (countKey server { scan with
        firstkey := some name
        slot := thisslot
        n := some n
        migratingSlot := migrating
        importingSlot := !migrating && (server.cluster.importingSlotsFrom thisslot).isSome } name)
  | some firstkey =>
    if scan.slot ≠ thisslot then .error .crossSlot
    else
      .ok (countKey server { scan with
        multipleKeys := scan.multipleKeys || (scan.importingSlot && decide (firstkey ≠ name)) } name)

def scanCommand (cmd : MultiCmd Key) : Except ClusterRedir (QueryScan Name Key) :=
  (cmd.keys.map KeyReference.name).foldlM (scanKey server)
    { scan with pubsubshardIncluded := scan.pubsubshardIncluded || cmd.channels }

def scanStart : QueryScan Name Key := ⟨none, none, ⟨0, by decide⟩, false, false, false, false, 0, 0⟩
end Scan

variable (server : QueryServer Name Key) (c : QueryClient Key)

/-- A single command is handled as a transaction with one command. An `EXEC` outside a transaction has none. -/
def QueryClient.commands : List (MultiCmd Key) :=
  if c.proc = .execCommand then (if c.multi then c.mstate else []) else [c.cmd]

/-- The error of a request with keys when the cluster is down. -/
def downError (pubsubshardIncluded : Bool) : Option ClusterRedir :=
  if server.stateOk then none
  else if pubsubshardIncluded then (if server.allowPubsubshardWhenDown then none else some .downState)
  else if !server.allowReadsWhenDown then some .downState
  else if c.cmdWrite then some .downRoState
  else none

/-- The decision after the loops for a request with keys. -/
def routeQuery (scan : QueryScan Name Key) (n : Name) : QueryResult Name :=
  let myself := server.cluster.myself
  let result (node : Option Name) (code : ClusterRedir) : QueryResult Name := ⟨node, code, some scan.slot⟩
  if (scan.migratingSlot || scan.importingSlot) && c.proc = .migrateCommand then result (some myself) .none
  else if scan.migratingSlot && scan.missingKeys ≠ 0 then
    if scan.existingKeys ≠ 0 then result none .unstable
    else result (server.cluster.migratingSlotsTo scan.slot) .ask
  else if scan.importingSlot && (c.asking || c.cmdAsking) then
    if scan.multipleKeys && scan.missingKeys ≠ 0 then result none .unstable else result (some myself) .none
  else if (c.readonly || scan.pubsubshardIncluded) &&
      !(c.cmdWrite || (c.proc = .execCommand && c.mstateWrite)) &&
      (server.cluster.nodes.lookup myself).any fun me => me.role = .slave && me.slaveof = some n then
    result (some myself) .none
  else result (some n) (if n = myself then .none else .moved)

def getNodeByQuery : QueryResult Name :=
  if server.noRedirection then ⟨some server.cluster.myself, .none, none⟩
  else
    match c.commands.foldlM (scanCommand server) scanStart with
    | .error code => ⟨none, code, none⟩
    | .ok scan =>
      match scan.n with
      | none => ⟨some server.cluster.myself, .none, none⟩
      | some n =>
        match downError server c scan.pubsubshardIncluded with
        | some code => ⟨none, code, none⟩
        | none => routeQuery server c scan n

/-- The request on a new connection, which has no transaction. -/
def QueryClient.reconnect (asking : Bool) : QueryClient Key :=
  { c with asking := asking, readonly := false, multi := false, mstate := [], mstateWrite := false }

/-- The loop of `issueCommandRepeat` in `redis-cli.c`, which sends a request `again` times at most. The client connects
to the node of a `MOVED` or `ASK` reply, and sends `ASKING` first in the second case. The last reply is returned with its
node and its connection. -/
def issueCommandRepeat (servers : Name → QueryServer Name Key) :
    Nat → Name → QueryClient Key → Option (Name × QueryClient Key × QueryResult Name)
  | 0, _, _ => none
  | again + 1, node, c =>
    let reply := getNodeByQuery (servers node) c
    match reply.errorCode, reply.node with
    | .moved, some next => issueCommandRepeat servers again next (c.reconnect false)
    | .ask, some next => issueCommandRepeat servers again next (c.reconnect true)
    | _, _ => some (node, c, reply)

end Redis.Cluster

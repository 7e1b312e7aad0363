/- This file models how clients are blocked with a time limit and how they time out. -/
import Redis.Construction.Fault

namespace Redis.Blocking

inductive BlockingType where
  | list
  | zset
  | stream
  | wait
  | waitaof
  | module
  | postpone
  | shutdown
  deriving DecidableEq, Repr

/-- The fields of a client that blocking uses. The client is blocked unless it has no `btype`. -/
structure Client where
  btype : Option BlockingType
  timeout : Nat
  inToTable : Bool
  pendingCommand : Bool
  cmd : Bool
  deriving DecidableEq, Repr

/-- The clients that are not freed, and the keys of the timeout table in their order. A key is a timeout and a client,
and the clients are numbered in the order of their pointers. -/
structure Server where
  clients : Nat → Option Client
  clientsTimeoutTable : List (Nat × Nat)

def initClientBlockingState : Client := ⟨none, 0, false, false, false⟩

variable (server : Server) (id : Nat)

def Server.store (client : Option Client) : Server :=
  { server with clients := Function.update server.clients id client }

variable (c : Client)

/-- A client without a limit is not added, and `raxTryInsert` adds no key twice. -/
def addClientToTimeoutTable : Server :=
  if c.timeout = 0 ∨ (c.timeout, id) ∈ server.clientsTimeoutTable then server.store id (some c)
  else
    { server.store id (some { c with inToTable := true }) with
      clientsTimeoutTable := server.clientsTimeoutTable.orderedInsert
        (fun a b => a.1 < b.1 ∨ a.1 = b.1 ∧ a.2 ≤ b.2) (c.timeout, id) }

def removeClientFromTimeoutTable : Server :=
  { server.store id (some { c with inToTable := false }) with
    clientsTimeoutTable :=
      if c.inToTable then server.clientsTimeoutTable.erase (c.timeout, id) else server.clientsTimeoutTable }

def blockClient (btype : BlockingType) : Server := addClientToTimeoutTable server id { c with btype := some btype }

/-- A command that is executed again keeps its first limit. -/
def blockForKeys (btype : BlockingType) (timeout : Nat) (reprocessing : Bool) : Server :=
  blockClient server id { c with
    timeout := if reprocessing then c.timeout else timeout
    pendingCommand := c.pendingCommand || btype ≠ .module } btype

/-- The common part of the functions that block with a limit of their own. -/
def blockFor (btype : BlockingType) (timeout : Nat) : Server := blockClient server id { c with timeout } btype

def blockForReplication (timeout : Nat) : Server := blockFor server id c .wait timeout

def blockForAofFsync (timeout : Nat) : Server := blockFor server id c .waitaof timeout

def moduleBlockClient (timeout : Nat) : Server := blockFor server id c .module timeout

def blockPostponeClient : Server := blockClient server id { c with timeout := 0, pendingCommand := true } .postpone

def blockClientShutdown : Server := blockClient server id c .shutdown

/-- The client is reset unless its command is pending or waits for a shutdown. -/
def unblockClient : Server :=
  removeClientFromTimeoutTable server id
    { c with btype := none, cmd := c.cmd && (c.pendingCommand || c.btype = some .shutdown) }

def unblockClientOnError : Server := unblockClient server id { c with pendingCommand := false }

/-- There is no reply for postponed clients and for those that wait for a shutdown. -/
def replyToBlockedClientTimedOut : Checked Unit :=
  require .replyToBlockedClientTimedOut (c.btype ∉ [none, some .postpone, some .shutdown])

def unblockClientOnTimeout : Checked Server := do
  replyToBlockedClientTimedOut c
  return unblockClient server id { c with pendingCommand := false }

def checkBlockedClientTimeout (now : Nat) : Checked Server :=
  if c.btype ≠ none ∧ c.timeout ≠ 0 ∧ c.timeout < now then unblockClientOnTimeout server id c
  else return server.store id (some c)

/-- Each iteration takes the first key of the table. A freed client cannot be read. -/
def timeoutLoop (now : Nat) : Nat → Server → Checked Server
  | 0, _ => throw .outOfFuel
  | fuel + 1, server =>
    match server.clientsTimeoutTable with
    | [] => return server
    | (timeout, id) :: _ =>
      if now ≤ timeout then return server
      else
        match server.clients id with
        | none => throw .outOfBounds
        | some c => do
          let server ← checkBlockedClientTimeout server id { c with inToTable := false } now
          timeoutLoop now fuel { server with clientsTimeoutTable := server.clientsTimeoutTable.erase (timeout, id) }

def handleBlockedClientsTimeout (now : Nat) : Checked Server :=
  timeoutLoop now (server.clientsTimeoutTable.length + 1) server

/-- What comes of a command: it ends, it is postponed before or behind the lookup of the command, or it blocks. -/
inductive Command where
  | finish
  | postponeUnread
  | postpone
  | keys (btype : BlockingType) (data : btype ∈ [.list, .zset, .stream, .module]) (timeout : Nat)
  | wait (timeout : Nat)
  | waitaof (timeout : Nat)
  | module (timeout : Nat)
  | shutdown

/-- A client that still has a command executes it again. -/
def processCommand (command : Command) : Server :=
  let pending := { c with pendingCommand := false }
  let known := { pending with cmd := true }
  match command with
  | .finish => server.store id (some { pending with cmd := false })
  | .postponeUnread => blockPostponeClient server id pending
  | .postpone => blockPostponeClient server id known
  | .keys btype _ timeout => blockForKeys server id known btype timeout c.cmd
  | .wait timeout => blockForReplication server id known timeout
  | .waitaof timeout => blockForAofFsync server id known timeout
  | .module timeout => moduleBlockClient server id known timeout
  | .shutdown => blockClientShutdown server id known

/-- A blocked client leaves the table before it is freed. -/
def freeClient : Server := (if c.btype = none then server else unblockClient server id c).store id none

inductive ClientEvent where
  | freeClient
  | processCommand (command : Command)
  | unblockClient
  | unblockClientOnError
  | clientUnblock

/-- Commands are executed for clients that are not blocked. `CLIENT UNBLOCK` replies like a timeout. -/
def clientStep : ClientEvent → Checked Server
  | .freeClient => return freeClient server id c
  | .processCommand command => return if c.btype = none then processCommand server id c command else server
  | .unblockClient => return if c.btype = none then server else unblockClient server id c
  | .unblockClientOnError => return if c.btype = none then server else unblockClientOnError server id c
  | .clientUnblock => if c.btype = none then return server else unblockClientOnTimeout server id c

inductive Event where
  | createClient (id : Nat)
  | client (id : Nat) (event : ClientEvent)
  | handleBlockedClientsTimeout (now : Nat)

def step : Event → Checked Server
  | .createClient id => return (server.clients id).elim (server.store id (some initClientBlockingState)) fun _ => server
  | .client id event => (server.clients id).elim (return server) (clientStep server id · event)
  | .handleBlockedClientsTimeout now => handleBlockedClientsTimeout server now

end Redis.Blocking

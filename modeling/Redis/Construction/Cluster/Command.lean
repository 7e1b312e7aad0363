/-
This file embeds the subcommands of `CLUSTER` in `cluster.c` that change slots, roles, epochs or nodes, and collects the
events of one server.
-/

import Redis.Construction.Cluster.Packet

namespace Redis.Cluster

variable {Name : Type}

inductive CommandError (Name : Type) where
  | slotUnassigned (slot : Slot)
  | slotBusy (slot : Slot)
  | slotRepeated (slot : Slot)
  | dbNotEmpty
  | setslotOnReplica
  | notOwner (slot : Slot)
  | alreadyOwner (slot : Slot)
  | unknownTarget (n : Name)
  | targetNotMaster
  | unknownNode (n : Name)
  | holdsKeys (slot : Slot)
  | forgetsMyself
  | forgetsMyMaster
  | replicatesMyself
  | replicatesReplica
  | notEmpty
  | failoverOnMaster
  | masterUnknown
  | masterDown
  | invalidEpoch (epoch : Int)
  | knowsOtherNodes
  | epochAlreadySet
  deriving DecidableEq

def CommandError.text [ToString Name] : CommandError Name → String
  | .slotUnassigned slot => s!"Slot {slot} is already unassigned"
  | .slotBusy slot => s!"Slot {slot} is already busy"
  | .slotRepeated slot => s!"Slot {slot} specified multiple times"
  | .dbNotEmpty => "DB must be empty to perform CLUSTER FLUSHSLOTS."
  | .setslotOnReplica => "Please use SETSLOT only with masters."
  | .notOwner slot => s!"I'm not the owner of hash slot {slot}"
  | .alreadyOwner slot => s!"I'm already the owner of hash slot {slot}"
  | .unknownTarget n => s!"I don't know about node {n}"
  | .targetNotMaster => "Target node is not a master"
  | .unknownNode n => s!"Unknown node {n}"
  | .holdsKeys slot =>
    s!"Can't assign hashslot {slot} to a different node while I still hold keys for this hash slot."
  | .forgetsMyself => "I tried hard but I can't forget myself..."
  | .forgetsMyMaster => "Can't forget my master!"
  | .replicatesMyself => "Can't replicate myself"
  | .replicatesReplica => "I can only replicate a master, not a replica."
  | .notEmpty => "To set a master the node must be empty and without assigned slots."
  | .failoverOnMaster => "You should send CLUSTER FAILOVER to a replica"
  | .masterUnknown => "I'm a replica but my master is unknown to me"
  | .masterDown => "Master is down or failed, please use CLUSTER FAILOVER FORCE"
  | .invalidEpoch epoch => s!"Invalid config epoch specified: {epoch}"
  | .knowsOtherNodes => "The user can assign a config epoch only when the node does not know any other node."
  | .epochAlreadySet => "Node config epoch is already non-zero"

section Commands
variable [DecidableEq Name]

/-- The flags of the arguments, or the first refusal. -/
def checkSlotAssignmentsOrReply (del : Bool) (s : ClusterState Name) :
    List Slot → Bitmap → Except (CommandError Name) Bitmap
  | [], seen => return seen
  | slot :: rest, seen =>
    if del ∧ (s.slots slot).isNone then throw (.slotUnassigned slot)
    else if !del ∧ (s.slots slot).isSome then throw (.slotBusy slot)
    else if seen slot then throw (.slotRepeated slot)
    else checkSlotAssignmentsOrReply del s rest (Function.update seen slot true)

def clusterUpdateSlots (slots : Bitmap) (del : Bool) (s : ClusterState Name) : Checked (ClusterState Name) :=
  forSlots (fun s j =>
    if slots j then do
      let s := { s with importingSlotsFrom := Function.update s.importingSlotsFrom j none }
      let (s, ok) ← (if del then clusterDelSlot j s else clusterAddSlot s.myself j s)
      require .clusterUpdateSlots (ok = true)
      return s
    else return s) s

/-- The result of a subcommand is the state and the refusal, if there is one. -/
abbrev CommandResult (Name : Type) := ClusterState Name × Option (CommandError Name)

/-- What the subcommands read besides the state. The field `blacklisted` is about the node to forget. -/
structure CommandEnv where
  mstime : Int
  blacklisted : Bool
  countKeysInSlot : Slot → Nat
  dbSize : Nat
  masterLinked : Bool

variable (slot : Slot) (n : Name) (s : ClusterState Name)

/-- The part that the marks `MIGRATING` and `IMPORTING` share: the target has to be a known master. -/
def withTarget (unknown : CommandError Name) (s : ClusterState Name)
    (next : Checked (CommandResult Name)) : Checked (CommandResult Name) :=
  match s.nodes.lookup n with
  | none => return (s, some unknown)
  | some node => if node.role = .slave then return (s, some .targetNotMaster) else next

def setslotMigrating : Checked (CommandResult Name) :=
  if s.slots slot ≠ some s.myself then return (s, some (.notOwner slot))
  else withTarget n (.unknownTarget n) s
    (return ({ s with migratingSlotsTo := Function.update s.migratingSlotsTo slot (some n) }, none))

def setslotImporting : Checked (CommandResult Name) :=
  if s.slots slot = some s.myself then return (s, some (.alreadyOwner slot))
  else withTarget n (.unknownTarget n) s
    (return ({ s with importingSlotsFrom := Function.update s.importingSlotsFrom slot (some n) }, none))

def setslotStable : ClusterState Name :=
  { s with
    importingSlotsFrom := Function.update s.importingSlotsFrom slot none
    migratingSlotsTo := Function.update s.migratingSlotsTo slot none }

def followNewOwner (config : ClusterConfig) (slotWasMine : Bool) (n : Name) (s : ClusterState Name) :
    Checked (ClusterState Name) := do
  let me ← s.node s.myself
  if slotWasMine ∧ n ≠ s.myself ∧ me.numslots = 0 ∧ config.clusterAllowReplicaMigration then clusterSetMaster n s
  else return s

/-- An imported slot is closed with a new epoch. -/
def closeImport : Checked (ClusterState Name) :=
  if n = s.myself ∧ (s.importingSlotsFrom slot).isSome then do
    let s ← clusterBumpConfigEpochWithoutConsensus s
    return { s with importingSlotsFrom := Function.update s.importingSlotsFrom slot none }
  else return s

def setslotNode (config : ClusterConfig) (env : CommandEnv) (slot : Slot) (n : Name) (s : ClusterState Name) :
    Checked (CommandResult Name) :=
  withTarget n (.unknownNode n) s <|
    if s.slots slot = some s.myself ∧ n ≠ s.myself ∧ env.countKeysInSlot slot ≠ 0 then
      return (s, some (.holdsKeys slot))
    else do
      let slotWasMine := decide (s.slots slot = some s.myself)
      let s := if env.countKeysInSlot slot = 0 then
          { s with migratingSlotsTo := Function.update s.migratingSlotsTo slot none } else s
      let s ← rebindSlot n slot s
      let s ← followNewOwner config slotWasMine n s
      return (← closeImport slot n s, none)

def forget (env : CommandEnv) (n : Name) (s : ClusterState Name) : Checked (CommandResult Name) := do
  let me ← s.node s.myself
  if (s.nodes.lookup n).isNone then return (s, if env.blacklisted then none else some (.unknownNode n))
  else if n = s.myself then return (s, some .forgetsMyself)
  else if me.role = .slave ∧ me.slaveof = some n then return (s, some .forgetsMyMaster)
  else return (← clusterDelNode n s, none)

def replicate (env : CommandEnv) (n : Name) (s : ClusterState Name) : Checked (CommandResult Name) := do
  let me ← s.node s.myself
  match s.nodes.lookup n with
  | none => return (s, some (.unknownNode n))
  | some node =>
    if n = s.myself then return (s, some .replicatesMyself)
    else if node.role = .slave then return (s, some .replicatesReplica)
    else if me.role = .master ∧ (me.numslots ≠ 0 ∨ env.dbSize ≠ 0) then return (s, some .notEmpty)
    else return (← clusterSetMaster n s, none)

inductive FailoverMode where
  | agreed
  | force
  | takeover
  deriving DecidableEq, Repr

def failover (env : CommandEnv) (mode : FailoverMode) (s : ClusterState Name) : Checked (CommandResult Name) := do
  let me ← s.node s.myself
  match me.role, me.slaveof with
  | .master, _ => return (s, some .failoverOnMaster)
  | .slave, none => return (s, some .masterUnknown)
  | .slave, some m => do
      let master ← s.node m
      if mode = .agreed ∧ (master.fail ∨ !env.masterLinked) then return (s, some .masterDown)
      else
        let s := { resetManualFailover s with mfEnd := env.mstime + 5000 }
        match mode with
        | .takeover => do
            let s ← clusterBumpConfigEpochWithoutConsensus s
            return (← clusterFailoverReplaceYourMaster s, none)
        | .force => return ({ s with mfCanStart := true }, none)
        | .agreed => return (s, none)

/-- The argument is a `long long`. -/
def setConfigEpoch (epoch : Int64) (s : ClusterState Name) : Checked (CommandResult Name) := do
  let me ← s.node s.myself
  if epoch < 0 then return (s, some (.invalidEpoch epoch.toInt))
  else if s.nodes.entries.length > 1 then return (s, some .knowsOtherNodes)
  else if me.configEpoch ≠ 0 then return (s, some .epochAlreadySet)
  else
    let s := s.setNode s.myself { me with configEpoch := epoch.toUInt64 }
    return (if s.currentEpoch < epoch.toUInt64 then { s with currentEpoch := epoch.toUInt64 } else s, none)

inductive ClusterCommand (Name : Type) where
  | addslots (slots : List Slot)
  | delslots (slots : List Slot)
  | flushslots
  | setslotMigrating (slot : Slot) (n : Name)
  | setslotImporting (slot : Slot) (n : Name)
  | setslotStable (slot : Slot)
  | setslotNode (slot : Slot) (n : Name)
  | bumpepoch
  | setConfigEpoch (epoch : Int64)
  | forget (n : Name)
  | replicate (n : Name)
  | failover (mode : FailoverMode)

/-- `ADDSLOTS` and `DELSLOTS`. -/
def updateSlotsCommand (slots : List Slot) (del : Bool) (s : ClusterState Name) : Checked (CommandResult Name) :=
  match checkSlotAssignmentsOrReply del s slots fun _ => false with
  | .error refusal => return (s, some refusal)
  | .ok seen => return (← clusterUpdateSlots seen del s, none)

/-- `SETSLOT` is refused by a replica. -/
def onMaster (next : ClusterState Name → Checked (CommandResult Name)) (s : ClusterState Name) :
    Checked (CommandResult Name) := do
  let me ← s.node s.myself
  if me.role = .slave then return (s, some .setslotOnReplica) else next s

def clusterCommand (config : ClusterConfig) (env : CommandEnv) (command : ClusterCommand Name) (s : ClusterState Name) :
    Checked (CommandResult Name) :=
  match command with
  | .addslots slots => updateSlotsCommand slots false s
  | .delslots slots => updateSlotsCommand slots true s
  | .flushslots =>
    if env.dbSize ≠ 0 then return (s, some .dbNotEmpty) else return (← clusterDelNodeSlots s.myself s, none)
  | .setslotMigrating slot n => onMaster (setslotMigrating slot n) s
  | .setslotImporting slot n => onMaster (setslotImporting slot n) s
  | .setslotStable slot => onMaster (fun s => return (setslotStable slot s, none)) s
  | .setslotNode slot n => onMaster (setslotNode config env slot n) s
  | .bumpepoch => return (← clusterBumpConfigEpochWithoutConsensus s, none)
  | .setConfigEpoch epoch => setConfigEpoch epoch s
  | .forget n => forget env n s
  | .replicate n => replicate env n s
  | .failover mode => failover env mode s
end Commands

section Events
variable [LinearOrder Name]

/-- The part of the function that computes the size. -/
def clusterUpdateState (s : ClusterState Name) : ClusterState Name :=
  { s with size := s.nodes.entries.countP fun entry => entry.2.role = .master ∧ entry.2.numslots ≠ 0 }

/-- A node that ended its handshake. -/
def clusterAddNode (n : Name) (role : Role) (shardId : Name) (s : ClusterState Name) : ClusterState Name :=
  if (s.nodes.lookup n).isSome then s else s.setNode n (createClusterNode role false shardId)

/-- What happens at one server. -/
inductive Event (Name : Type) where
  | packet (env : PacketEnv Name) (link : ClusterLink Name) (hdr : ClusterMsg Name)
  | command (env : CommandEnv) (command : ClusterCommand Name)
  | slaveFailover (env : FailoverEnv)
  | handshake (n : Name) (role : Role) (shardId : Name)
  | updateState
  | manualFailoverReady
  | manualFailoverTimeout

/-- The second result lists the messages that are sent. -/
def ClusterState.step (config : ClusterConfig) (s : ClusterState Name) (event : Event Name) :
    Checked (ClusterState Name × List (ClusterMsg Name)) :=
  match event with
  | .packet env link hdr => do
      let (s, reply) ← clusterProcessPacket config env link hdr s
      return (s, reply.toList)
  | .command env command => do
      let (s, _) ← clusterCommand config env command s
      return (s, [])
  | .slaveFailover env => do
      let result ← clusterHandleSlaveFailover config env s
      return (result.state, result.request.toList)
  | .handshake n role shardId => return (clusterAddNode n role shardId s, [])
  | .updateState => return (clusterUpdateState s, [])
  | .manualFailoverReady => return ({ s with mfCanStart := true }, [])
  | .manualFailoverTimeout => return (resetManualFailover s, [])
end Events
end Redis.Cluster

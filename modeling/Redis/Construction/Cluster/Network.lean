/-
This file embeds what `nodes.conf` keeps of the cluster state, as records, and composes servers to a network.
-/

import Redis.Construction.Cluster.Command

namespace Redis.Cluster

variable {Name : Type}

section Config
variable [DecidableEq Name]

/-- What one line keeps of a node. -/
structure SavedNode (Name : Type) where
  name : Name
  role : Role
  fail : Bool
  shardId : Name
  slaveof : Option Name
  configEpoch : UInt64
  slots : Bitmap

structure SavedConfig (Name : Type) where
  myself : Name
  nodes : List (SavedNode Name)
  migratingSlotsTo : Slot → Option Name
  importingSlotsFrom : Slot → Option Name
  currentEpoch : UInt64
  lastVoteEpoch : UInt64

variable (randomShardId : Name → Name) (n : Name) (s : ClusterState Name)

/-- The line of a replica has the epoch of its master. -/
def clusterGenNodeDescription (n : Name) (node : ClusterNode Name) : Checked (SavedNode Name) := do
  let master ← announcedMaster s node
  return {
    name := n
    role := node.role
    fail := node.fail
    shardId := node.shardId
    slaveof := node.slaveof
    configEpoch := master.configEpoch
    slots := node.slots }

/-- A slot has at most one mark in the file. -/
def clusterSaveConfig : Checked (SavedConfig Name) := do
  let nodes ← s.nodes.entries.mapM fun entry => clusterGenNodeDescription s entry.1 entry.2
  return {
    myself := s.myself
    nodes := nodes
    migratingSlotsTo := s.migratingSlotsTo
    importingSlotsFrom := fun j => if (s.migratingSlotsTo j).isSome then none else s.importingSlotsFrom j
    currentEpoch := s.currentEpoch
    lastVoteEpoch := s.lastVoteEpoch }

/-- A node is created when a line names it. It has no role before its own line is read. -/
def ensureNode : ClusterState Name :=
  if (s.nodes.lookup n).isSome then s else s.setNode n (createClusterNode .master false (randomShardId n))

/-- The replicas that were read before follow the identifier of their master. -/
def auxShardIdSetter (n shardId : Name) (s : ClusterState Name) : Checked (ClusterState Name) := do
  let node ← s.node n
  let s := s.setNode n { node with shardId := shardId }
  node.slaves.foldlM (fun s slave => updateShardId slave shardId s) s

/-- The link of a line to a master. -/
def loadMaster (slaveof : Option Name) (s : ClusterState Name) : Checked (ClusterState Name) :=
  match slaveof with
  | none => return s
  | some m => do
      let s := ensureNode randomShardId m s
      let master ← s.node m
      let node ← s.node n
      let s := s.setNode n { node with shardId := master.shardId, slaveof := some m }
      clusterNodeAddSlave m n s

def loadLine (line : SavedNode Name) : Checked (ClusterState Name) := do
  let s := ensureNode randomShardId line.name s
  let s ← auxShardIdSetter line.name line.shardId s
  let node ← s.node line.name
  let s := s.setNode line.name { node with role := line.role, fail := line.fail }
  let s ← loadMaster randomShardId line.name line.slaveof s
  let node ← s.node line.name
  let epoch := if node.role = .slave ∧ node.slaveof.isSome then 0 else line.configEpoch
  let s := s.setNode line.name { node with configEpoch := epoch }
  forSlots (fun s j => if line.slots j then return (← clusterAddSlot line.name j s).1 else return s) s

/-- The state before the file is read. The flag `failover_auth_sent` has no initial value. -/
def clusterInit (file : SavedConfig Name) (failoverAuthSent : Bool) : ClusterState Name where
  myself := file.myself
  currentEpoch := file.currentEpoch
  lastVoteEpoch := file.lastVoteEpoch
  size := 0
  nodes := ∅
  slots := fun _ => none
  ownerNotClaimingSlot := fun _ => false
  migratingSlotsTo := file.migratingSlotsTo
  importingSlotsFrom := file.importingSlotsFrom
  failoverAuthTime := 0
  failoverAuthCount := 0
  failoverAuthSent := failoverAuthSent
  failoverAuthRank := 0
  failoverAuthEpoch := 0
  mfEnd := 0
  mfCanStart := false

/-- The result is empty when the server refuses the file. -/
def clusterLoadConfig (failoverAuthSent : Bool) (file : SavedConfig Name) : Checked (Option (ClusterState Name)) := do
  let s ← file.nodes.foldlM (loadLine randomShardId) (clusterInit file failoverAuthSent)
  match s.nodes.lookup s.myself with
  | none => return none
  | some me =>
    if me.role = .slave ∧ me.slaveof.isNone then return none
    else if clusterGetMaxEpoch s > s.currentEpoch then
      return some { s with currentEpoch := clusterGetMaxEpoch s }
    else return some s
end Config

section Network
variable [LinearOrder Name]

/-- The servers, the files that they saved and all messages that were sent. -/
structure Network (Name : Type) where
  servers : Name → ClusterState Name
  files : Name → Option (SavedConfig Name)
  sent : List (ClusterMsg Name)

/-- What a server sends besides the replies and the requests for votes. -/
inductive Outgoing (Name : Type) where
  | ping (kind : PingKind) (gossip : List (GossipEntry Name)) (shardId : Option Name) (forgotten : List Name)
  | fail (about : Name)
  | publish
  | mfstart
  | update (n : Name)
  | moduleData

def Outgoing.build (s : ClusterState Name) : Outgoing Name → Checked (ClusterMsg Name)
  | .ping kind gossip shardId forgotten => clusterBuildMessageHdr s false (.ping kind gossip shardId forgotten)
  | .fail about => clusterBuildMessageHdr s false (.fail about)
  | .publish => clusterBuildMessageHdr s false .publish
  | .mfstart => clusterBuildMessageHdr s false .mfstart
  | .update n => clusterSendUpdate s n
  | .moduleData => clusterBuildMessageHdr s false .moduleData

/-- A message is delivered by its position in the record: at any time, in any order, or never. -/
inductive NetworkEvent (Name : Type) where
  | deliver (server : Name) (position : Nat) (env : PacketEnv Name) (link : ClusterLink Name)
  | send (server : Name) (message : Outgoing Name)
  | command (server : Name) (env : CommandEnv) (command : ClusterCommand Name)
  | slaveFailover (server : Name) (env : FailoverEnv)
  | handshake (server n : Name) (role : Role) (shardId : Name)
  | updateState (server : Name)
  | manualFailoverReady (server : Name)
  | manualFailoverTimeout (server : Name)
  | save (server : Name)
  | restart (server : Name) (randomShardId : Name → Name) (failoverAuthSent : Bool)

/-- A server handles an event. One that stops leaves the network as it is. -/
def Network.handle (config : ClusterConfig) (server : Name) (event : Event Name) (w : Network Name) : Network Name :=
  match (w.servers server).step config event with
  | .ok (s, messages) => { w with servers := Function.update w.servers server s, sent := w.sent ++ messages }
  | .error _ => w

def Network.step (config : Name → ClusterConfig) (w : Network Name) : NetworkEvent Name → Network Name
  | .deliver server position env link =>
    match w.sent[position]? with
    | some hdr => w.handle (config server) server (.packet env link hdr)
    | none => w
  | .send server message =>
    match message.build (w.servers server) with
    | .ok hdr => { w with sent := w.sent ++ [hdr] }
    | .error _ => w
  | .command server env command => w.handle (config server) server (.command env command)
  | .slaveFailover server env => w.handle (config server) server (.slaveFailover env)
  | .handshake server n role shardId => w.handle (config server) server (.handshake n role shardId)
  | .updateState server => w.handle (config server) server .updateState
  | .manualFailoverReady server => w.handle (config server) server .manualFailoverReady
  | .manualFailoverTimeout server => w.handle (config server) server .manualFailoverTimeout
  | .save server =>
    match clusterSaveConfig (w.servers server) with
    | .ok file => { w with files := Function.update w.files server (some file) }
    | .error _ => w
  | .restart server randomShardId failoverAuthSent =>
    match (w.files server).map (clusterLoadConfig randomShardId failoverAuthSent) with
    | some (.ok (some s)) => { w with servers := Function.update w.servers server s }
    | _ => w

/-- What a header does to the epochs: the parts of `clusterProcessPacket` that learn epochs and find a collision. -/
def processEpochs (sender : Name) (hdr : ClusterMsg Name) (s : ClusterState Name) : Checked (ClusterState Name) := do
  let s ← updateEpochs sender hdr s
  let node ← s.node sender
  let me ← s.node s.myself
  if me.role = .master ∧ node.role = .master ∧ hdr.configEpoch = me.configEpoch then
    clusterHandleConfigEpochCollision sender s
  else return s

def Network.run (config : Name → ClusterConfig) (w : Network Name) (events : List (NetworkEvent Name)) : Network Name :=
  events.foldl (Network.step config) w
end Network
end Redis.Cluster

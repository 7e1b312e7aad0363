/-
This file embeds the processing of packets of `cluster.c` for nodes that are past the handshake.
-/

import Redis.Construction.Cluster.Failover

namespace Redis.Cluster

variable {Name : Type}

section Nodes
variable [DecidableEq Name]

/-- The variables of the loop. The field `newmaster` tells that it is set to the sender. -/
structure SlotScan (Name : Type) where
  state : ClusterState Name
  newmaster : Bool
  senderSlots : Nat
  migratedOurSlots : Nat

/-- The slot is not assigned, or its owner does not claim it, or it is claimed with a greater epoch. -/
def rebinds (s : ClusterState Name) (senderConfigEpoch : UInt64) (j : Slot) : Checked Bool :=
  if isSlotUnclaimed s j then return true
  else
    match s.slots j with
    | none => return true
    | some owner => do
        let node ← s.node owner
        return decide (node.configEpoch < senderConfigEpoch)

def updateSlot (sender : Name) (senderConfigEpoch : UInt64) (slots : Bitmap) (curmaster : Option Name)
    (scan : SlotScan Name) (j : Slot) : Checked (SlotScan Name) := do
  let s := scan.state
  if slots j then
    let scan := { scan with senderSlots := scan.senderSlots + 1 }
    if s.slots j = some sender then
      return { scan with state := { s with ownerNotClaimingSlot := Function.update s.ownerNotClaimingSlot j false } }
    else if (s.importingSlotsFrom j).isSome then return scan
    else if ← rebinds s senderConfigEpoch j then
      let ours := decide (s.slots j = curmaster)
      return { scan with
        newmaster := scan.newmaster || ours
        migratedOurSlots := if ours then scan.migratedOurSlots + 1 else scan.migratedOurSlots
        state := ← rebindSlot sender j s }
    else return scan
  else if s.slots j = some sender then
    return { scan with state := { s with ownerNotClaimingSlot := Function.update s.ownerNotClaimingSlot j true } }
  else return scan

/-- The master of this server was left without slots. -/
def lostAllSlots (config : ClusterConfig) (curmaster : Option Name) (scan : SlotScan Name) : Checked Bool :=
  if !scan.newmaster then return false
  else
    match curmaster with
    | none => throw .nullPointer
    | some n => do
        let node ← scan.state.node n
        return decide (node.numslots = 0 ∧
          (config.clusterAllowReplicaMigration ∨ scan.senderSlots = scan.migratedOurSlots))

/-- The master of the master of this server, when it is another server. -/
def grandmaster (s : ClusterState Name) : Checked (Option Name) := do
  let me ← s.node s.myself
  match me.slaveof with
  | none => return none
  | some m => do
      let master ← s.node m
      return if master.slaveof = some s.myself then none else master.slaveof

def clusterUpdateSlotsConfigWith (config : ClusterConfig) (sender : Name) (senderConfigEpoch : UInt64) (slots : Bitmap)
    (s : ClusterState Name) : Checked (ClusterState Name) := do
  let me ← s.node s.myself
  let curmaster := if me.role = .master then some s.myself else me.slaveof
  if sender = s.myself then return s
  else
    let scan ← forSlots (updateSlot sender senderConfigEpoch slots curmaster) ⟨s, false, 0, 0⟩
    if config.moduleNoRedirection then return scan.state
    else if ← lostAllSlots config curmaster scan then clusterSetMaster sender scan.state
    else
      match ← grandmaster scan.state with
      | some n => clusterSetMaster n scan.state
      | none => return scan.state

/-- What packet processing reads besides the state and the packet: the readings of the clock, the verdicts of failure
detection, the black list and the random identifiers of new nodes. -/
structure PacketEnv (Name : Type) where
  now : Int
  mstime : Int
  grantTime : Int
  isFailing : Name → Bool
  isBack : Bool
  isBlacklisted : Name → Bool
  randomShardId : Name → Name

def createClusterNode (role : Role) (fail : Bool) (shardId : Name) : ClusterNode Name where
  role := role
  fail := fail
  shardId := shardId
  configEpoch := 0
  slots := fun _ => false
  numslots := 0
  slaves := []
  slaveof := none
  votedTime := 0

variable (env : PacketEnv Name)

/-- One entry of the gossip section. The failure reports themselves are not modelled. -/
def processGossip (sender : Name) (s : ClusterState Name) (g : GossipEntry Name) : Checked (ClusterState Name) := do
  let reporter ← s.node sender
  match s.nodes.lookup g.nodename with
  | some node =>
    if reporter.role = .master ∧ g.nodename ≠ s.myself ∧ (g.fail ∨ g.pfail) ∧ env.isFailing g.nodename then
      return s.setNode g.nodename { node with fail := true }
    else return s
  | none =>
    if g.noaddr ∨ env.isBlacklisted g.nodename then return s
    else return s.setNode g.nodename (createClusterNode g.role g.fail (env.randomShardId g.nodename))

def clusterProcessGossipSection (sender : Name) (gossip : List (GossipEntry Name))
    (s : ClusterState Name) : Checked (ClusterState Name) :=
  gossip.foldlM (processGossip env sender) s

/-- The reply of a failing node may show that it is back. -/
def clearNodeFailureIfNeeded (n : Name) (s : ClusterState Name) : Checked (ClusterState Name) := do
  let node ← s.node n
  if node.fail ∧ env.isBack then return s.setNode n { node with fail := false } else return s

variable (sender : Name) (hdr : ClusterMsg Name) (s : ClusterState Name)

/-- The part before the types are distinguished. -/
def updateEpochs : Checked (ClusterState Name) := do
  let node ← s.node sender
  let s := if hdr.currentEpoch > s.currentEpoch then { s with currentEpoch := hdr.currentEpoch } else s
  if hdr.configEpoch > node.configEpoch then return s.setNode sender { node with configEpoch := hdr.configEpoch }
  else return s

/-- The new master of a node, when it is known and in the same shard. -/
def sameShardMaster (master : Option Name) (s : ClusterState Name) : Checked (Option Name) := do
  let node ← s.node sender
  match master with
  | none => return none
  | some m => do
      let other ← s.node m
      return if other.shardId = node.shardId then some m else none

/-- A failover occurred in the shard: the slots go to the new master, which gets the epoch of the message. -/
def moveToNewMaster (sender m : Name) (senderConfigEpoch : UInt64) (s : ClusterState Name) :
    Checked (ClusterState Name) := do
  let s ← clusterMoveNodeSlots sender m s
  let s ← clusterSetNodeAsMaster m s
  let node ← s.node m
  return s.setNode m { node with configEpoch := senderConfigEpoch }

/-- A master turned into a replica. A stale message moves no slots. -/
def demoteSender (master : Option Name) (senderConfigEpoch : UInt64) (s : ClusterState Name) :
    Checked (ClusterState Name) := do
  let node ← s.node sender
  let s ← (match ← sameShardMaster sender master s with
    | some m =>
      if node.configEpoch > senderConfigEpoch then return s else moveToNewMaster sender m senderConfigEpoch s
    | none => clusterDelNodeSlots sender s)
  let node ← s.node sender
  return s.setNode sender { node with role := .slave }

def changeMaster (sender m : Name) (s : ClusterState Name) : Checked (ClusterState Name) := do
  let node ← s.node sender
  if node.slaveof = some m then return s
  else
    let s ← leaveMaster sender node.slaveof s
    let s ← clusterNodeAddSlave m sender s
    let node ← s.node sender
    let s := s.setNode sender { node with slaveof := some m }
    let master ← s.node m
    updateShardId sender master.shardId s

def checkRoleSwitch : Checked (ClusterState Name) :=
  match hdr.slaveof with
  | none => clusterSetNodeAsMaster sender s
  | some slaveof => do
      let master := if (s.nodes.lookup slaveof).isSome then some slaveof else none
      let node ← s.node sender
      let s ← (if node.role = .master then demoteSender sender master hdr.configEpoch s else return s)
      match master with
      | some m => changeMaster sender m s
      | none => return s

/-- The slots that the sender claims, compared with those that are known of it or of its master. -/
def dirtySlots : Checked Bool := do
  let node ← s.node sender
  match if node.role = .master then some sender else node.slaveof with
  | none => return false
  | some m => do
      let master ← s.node m
      return decide (master.slots ≠ hdr.myslots)

/-- The owner of a claimed slot that the sender has to be told about. -/
def newerOwner : Checked (Option Name) :=
  (List.finRange clusterSlots).findSomeM? fun j =>
    if !hdr.myslots j || decide (s.slots j = some sender) || isSlotUnclaimed s j then return none
    else
      match s.slots j with
      | none => return none
      | some owner => do
          let node ← s.node owner
          return if node.configEpoch > hdr.configEpoch then some owner else none

/-- A node that another server forgot is removed. -/
def processForgotten (n : Name) : Checked (ClusterState Name) := do
  let me ← s.node s.myself
  if (s.nodes.lookup n).isSome ∧ n ≠ s.myself ∧ ¬(me.role = .slave ∧ me.slaveof = some n) then clusterDelNode n s
  else return s

/-- The loop follows the links to the top. More steps than there are nodes mean that the links have a cycle. -/
def clusterNodeGetMaster (s : ClusterState Name) : Nat → Name → Checked Name
  | 0, _ => throw .outOfFuel
  | fuel + 1, n => do
      let node ← s.node n
      match node.slaveof with
      | some m => clusterNodeGetMaster s fuel m
      | none => return n

/-- The identifier of the extension, or else that of the master. -/
def announcedShardId (shardId : Option Name) (s : ClusterState Name) : Checked Name :=
  match shardId with
  | some id => return id
  | none => do
      let master ← s.node (← clusterNodeGetMaster s (s.nodes.entries.length + 1) sender)
      return master.shardId

def clusterProcessPingExtensions (shardId : Option Name) (forgotten : List Name)
    (s : ClusterState Name) : Checked (ClusterState Name) := do
  let s ← forgotten.foldlM processForgotten s
  updateShardId sender (← announcedShardId sender shardId s) s
end Nodes

section Packet
variable [LinearOrder Name]
variable (config : ClusterConfig)

/-- The part for `PING`, `PONG` and `MEET`. The second result is the message about a newer owner. -/
def processPing (env : PacketEnv Name) (sender : Name) (gossip : List (GossipEntry Name))
    (shardId : Option Name) (forgotten : List Name) (hdr : ClusterMsg Name) (s : ClusterState Name) :
    Checked (ClusterState Name × Option (ClusterMsg Name)) := do
  let s ← checkRoleSwitch sender hdr s
  let dirty ← dirtySlots sender hdr s
  let node ← s.node sender
  let s ← (if node.role = .master ∧ dirty then
      clusterUpdateSlotsConfigWith config sender hdr.configEpoch hdr.myslots s else return s)
  let update ← (if dirty then do
      match ← newerOwner sender hdr s with
      | some owner => return some (← clusterSendUpdate s owner)
      | none => return none
    else return none)
  let node ← s.node sender
  let me ← s.node s.myself
  let s ← (if me.role = .master ∧ node.role = .master ∧ hdr.configEpoch = me.configEpoch then
      clusterHandleConfigEpochCollision sender s else return s)
  let s ← clusterProcessGossipSection env sender gossip s
  let s ← clusterProcessPingExtensions sender shardId forgotten s
  return (s, update)

def processFail (about : Name) (s : ClusterState Name) : ClusterState Name :=
  match s.nodes.lookup about with
  | some node => if node.fail ∨ about = s.myself then s else s.setNode about { node with fail := true }
  | none => s

def processUpdate (nodename : Name) (reportedConfigEpoch : UInt64) (slots : Bitmap)
    (s : ClusterState Name) : Checked (ClusterState Name) :=
  match s.nodes.lookup nodename with
  | none => return s
  | some n =>
    if n.configEpoch ≥ reportedConfigEpoch then return s
    else do
      let s ← (if n.role = .slave then clusterSetNodeAsMaster nodename s else return s)
      let n ← s.node nodename
      let s := s.setNode nodename { n with configEpoch := reportedConfigEpoch }
      clusterUpdateSlotsConfigWith config nodename reportedConfigEpoch slots s

/-- The link that a packet came from: the node that it belongs to, whether it was opened by the other side, and whether
there is a link back to the sender. -/
structure ClusterLink (Name : Type) where
  node : Option Name
  inbound : Bool
  linked : Bool

/-- The sender of a packet, when it is known. -/
def getNodeFromLinkAndMsg (link : ClusterLink Name) (hdr : ClusterMsg Name) (s : ClusterState Name) : Option Name :=
  let name := link.node.getD hdr.sender
  if (s.nodes.lookup name).isSome then some name else none

/-- The packets of a sender that is not known only start a handshake. The results are the new state and the message
that is sent to the sender. -/
def clusterProcessPacket (env : PacketEnv Name) (link : ClusterLink Name)
    (hdr : ClusterMsg Name) (s : ClusterState Name) : Checked (ClusterState Name × Option (ClusterMsg Name)) :=
  match getNodeFromLinkAndMsg link hdr s with
  | none => return (s, none)
  | some sender => do
      let s ← updateEpochs sender hdr s
      match hdr.data with
      | .ping kind gossip shardId forgotten =>
        -- the reply of another node than the one that the link was opened to
        if !link.inbound ∧ sender ≠ hdr.sender then return (s, none)
        else do
          let s ← (if !link.inbound ∧ kind = .pong then clearNodeFailureIfNeeded env sender s else return s)
          processPing config env sender gossip shardId forgotten hdr s
      | .fail about => return (processFail about s, none)
      | .publish => return (s, none)
      | .failoverAuthRequest => clusterSendFailoverAuthIfNeeded config env.mstime env.grantTime link.linked sender hdr s
      | .failoverAuthAck => return (← countFailoverAuth sender hdr s, none)
      | .mfstart => do
          let node ← s.node sender
          if node.slaveof ≠ some s.myself then return (s, none)
          else return ({ resetManualFailover s with mfEnd := env.now + 5000 }, none)
      | .update nodename reportedConfigEpoch slots =>
        return (← processUpdate config nodename reportedConfigEpoch slots s, none)
      | .moduleData => return (s, none)
end Packet
end Redis.Cluster

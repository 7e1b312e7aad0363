/-
This file embeds the cluster state of `cluster.h` and the functions of `cluster.c` that change slots and roles.
-/

import Redis.Construction.Fault
import Mathlib.Data.List.AList

namespace Redis.Cluster

def clusterSlots : Nat := 16384

abbrev Slot := Fin clusterSlots

abbrev Bitmap := Slot → Bool

/-- A node that is past the handshake has exactly one of the flags `CLUSTER_NODE_MASTER` and `CLUSTER_NODE_SLAVE`. -/
inductive Role where
  | master
  | slave
  deriving DecidableEq, Repr

/-- One known node. The field `fail` is the flag `CLUSTER_NODE_FAIL`. -/
structure ClusterNode (Name : Type) where
  role : Role
  fail : Bool
  shardId : Name
  configEpoch : UInt64
  slots : Bitmap
  numslots : Int
  slaves : List Name
  slaveof : Option Name
  votedTime : Int

/-- The state of one server. Pointers to nodes are the names of the nodes. -/
structure ClusterState (Name : Type) where
  myself : Name
  currentEpoch : UInt64
  lastVoteEpoch : UInt64
  size : Nat
  nodes : AList fun _ : Name => ClusterNode Name
  slots : Slot → Option Name
  ownerNotClaimingSlot : Bitmap
  migratingSlotsTo : Slot → Option Name
  importingSlotsFrom : Slot → Option Name
  failoverAuthTime : Int
  failoverAuthCount : Nat
  failoverAuthSent : Bool
  failoverAuthRank : Int
  failoverAuthEpoch : UInt64
  mfEnd : Int
  mfCanStart : Bool

/-- The options that the functions read. -/
structure ClusterConfig where
  clusterNodeTimeout : Int
  clusterSlaveNoFailover : Bool
  clusterSlaveValidityFactor : Int
  replPingSlavePeriod : Int
  clusterAllowReplicaMigration : Bool
  moduleNoRedirection : Bool

variable {Name : Type} [DecidableEq Name]

def ClusterState.node (s : ClusterState Name) (n : Name) : Checked (ClusterNode Name) :=
  match s.nodes.lookup n with
  | some node => .ok node
  | none => .error .nullPointer

def ClusterState.setNode (s : ClusterState Name) (n : Name) (node : ClusterNode Name) : ClusterState Name :=
  { s with nodes := s.nodes.insert n node }

@[irreducible] def forSlots {State : Type} (body : State → Slot → Checked State) (state : State) : Checked State :=
  (List.finRange clusterSlots).foldlM body state

def isSlotUnclaimed (s : ClusterState Name) (slot : Slot) : Bool :=
  (s.slots slot).isNone || s.ownerNotClaimingSlot slot

/-- The slot bit is set and the old value is returned. -/
def clusterNodeSetSlotBit (n : ClusterNode Name) (slot : Slot) : ClusterNode Name × Bool :=
  let old := n.slots slot
  if old then (n, old)
  else ({ n with slots := Function.update n.slots slot true, numslots := n.numslots + 1 }, old)

/-- The slot bit is cleared and the old value is returned. -/
def clusterNodeClearSlotBit (n : ClusterNode Name) (slot : Slot) : ClusterNode Name × Bool :=
  let old := n.slots slot
  if old then ({ n with slots := Function.update n.slots slot false, numslots := n.numslots - 1 }, old)
  else (n, old)

/-- The result is false for `C_ERR`. -/
def clusterAddSlot (n : Name) (slot : Slot) (s : ClusterState Name) : Checked (ClusterState Name × Bool) :=
  if (s.slots slot).isSome then return (s, false)
  else do
    let node ← s.node n
    return ({ s.setNode n (clusterNodeSetSlotBit node slot).1 with
      slots := Function.update s.slots slot (some n) }, true)

def clusterDelSlot (slot : Slot) (s : ClusterState Name) : Checked (ClusterState Name × Bool) :=
  match s.slots slot with
  | none => return (s, false)
  | some n => do
      let node ← s.node n
      require .clusterDelSlot ((clusterNodeClearSlotBit node slot).2 = true)
      return ({ s.setNode n (clusterNodeClearSlotBit node slot).1 with
        slots := Function.update s.slots slot none
        ownerNotClaimingSlot := Function.update s.ownerNotClaimingSlot slot false }, true)

/-- The two calls that give a slot to another node. -/
def rebindSlot (n : Name) (slot : Slot) (s : ClusterState Name) : Checked (ClusterState Name) := do
  let (s, _) ← clusterDelSlot slot s
  let (s, _) ← clusterAddSlot n slot s
  return s

def clusterMoveNodeSlots (fromNode toNode : Name) (s : ClusterState Name) : Checked (ClusterState Name) :=
  forSlots (fun s j => do
    let node ← s.node fromNode
    if node.slots j then rebindSlot toNode j s else return s) s

def clusterDelNodeSlots (n : Name) (s : ClusterState Name) : Checked (ClusterState Name) :=
  forSlots (fun s j => do
    let node ← s.node n
    if node.slots j then return (← clusterDelSlot j s).1 else return s) s

def clusterCloseAllSlots (s : ClusterState Name) : ClusterState Name :=
  { s with migratingSlotsTo := fun _ => none, importingSlotsFrom := fun _ => none }

def clusterNodeRemoveSlave (master slave : Name) (s : ClusterState Name) : Checked (ClusterState Name) := do
  let node ← s.node master
  return s.setNode master { node with slaves := node.slaves.erase slave }

def clusterNodeAddSlave (master slave : Name) (s : ClusterState Name) : Checked (ClusterState Name) := do
  let node ← s.node master
  if slave ∈ node.slaves then return s
  else return s.setNode master { node with slaves := node.slaves ++ [slave] }

variable (n : Name) (s : ClusterState Name)

def leaveMaster (slaveof : Option Name) (s : ClusterState Name) : Checked (ClusterState Name) :=
  match slaveof with
  | some master => clusterNodeRemoveSlave master n s
  | none => return s

def clusterSetNodeAsMaster : Checked (ClusterState Name) := do
  let node ← s.node n
  if node.role = .master then return s
  else
    let s ← leaveMaster n node.slaveof s
    let node ← s.node n
    return s.setNode n { node with role := .master, slaveof := none }

def assignShardIdToNode (shardId : Name) (s : ClusterState Name) (n : Name) : Checked (ClusterState Name) := do
  let node ← s.node n
  return s.setNode n { node with shardId := shardId }

/-- The replicas of a master follow it. The identifier of a replica has to be that of its master. -/
def updateShardId (shardId : Name) (s : ClusterState Name) : Checked (ClusterState Name) := do
  let node ← s.node n
  if node.shardId = shardId then return s
  else
    match node.slaveof with
    | none => do
        let s ← assignShardIdToNode shardId s n
        node.slaves.foldlM (assignShardIdToNode shardId) s
    | some m => do
        let master ← s.node m
        if master.shardId = shardId then assignShardIdToNode shardId s n else return s

def resetManualFailover : ClusterState Name := { s with mfEnd := 0, mfCanStart := false }

/-- This server becomes a replica of a node. -/
def clusterSetMaster : Checked (ClusterState Name) := do
  require .clusterSetMaster (n ≠ s.myself)
  let me ← s.node s.myself
  require .clusterSetMaster (me.numslots = 0)
  let s ← (if me.role = .master then
      return clusterCloseAllSlots (s.setNode s.myself { me with role := .slave })
    else leaveMaster s.myself me.slaveof s)
  let me ← s.node s.myself
  let s := s.setNode s.myself { me with slaveof := some n }
  let master ← s.node n
  let s ← updateShardId s.myself master.shardId s
  let s ← clusterNodeAddSlave n s.myself s
  return resetManualFailover s

/-- The replicas of a node that is freed have no master. -/
def forgetMaster (n : Name) : Checked (ClusterState Name) := do
  let node ← s.node n
  return s.setNode n { node with slaveof := none }

def freeClusterNode : Checked (ClusterState Name) := do
  let node ← s.node n
  let s ← node.slaves.foldlM forgetMaster s
  let s ← (if node.role = .slave then leaveMaster n node.slaveof s else return s)
  return { s with nodes := s.nodes.erase n }

/-- A pointer to the node is cleared. -/
def clearPointer (delnode : Name) (pointer : Option Name) : Option Name :=
  if pointer = some delnode then none else pointer

def clusterDelNode (delnode : Name) (s : ClusterState Name) : Checked (ClusterState Name) := do
  let s ← forSlots (fun s j => do
    let s := { s with
      importingSlotsFrom := Function.update s.importingSlotsFrom j (clearPointer delnode (s.importingSlotsFrom j))
      migratingSlotsTo := Function.update s.migratingSlotsTo j (clearPointer delnode (s.migratingSlotsTo j)) }
    if s.slots j = some delnode then return (← clusterDelSlot j s).1 else return s) s
  freeClusterNode delnode s

end Redis.Cluster

/-
This file embeds the messages of the cluster bus, the config epochs and the failover of `cluster.c`.
-/

import Redis.Construction.Cluster.State

namespace Redis.Cluster

inductive PingKind where
  | ping
  | pong
  | meet
  deriving DecidableEq, Repr

/-- One entry of the gossip section, with the flags that are read. -/
structure GossipEntry (Name : Type) where
  nodename : Name
  role : Role
  fail : Bool
  pfail : Bool
  noaddr : Bool

/-- The data of a message. The extensions of a ping are the shard identifier, if it is sent, and the forgotten nodes. -/
inductive ClusterMsgData (Name : Type) where
  | ping (kind : PingKind) (gossip : List (GossipEntry Name)) (shardId : Option Name) (forgotten : List Name)
  | fail (about : Name)
  | publish
  | failoverAuthRequest
  | failoverAuthAck
  | mfstart
  | update (nodename : Name) (configEpoch : UInt64) (slots : Bitmap)
  | moduleData

/-- A message with its header. The field `forceAck` is the flag `CLUSTERMSG_FLAG0_FORCEACK`. -/
structure ClusterMsg (Name : Type) where
  sender : Name
  currentEpoch : UInt64
  configEpoch : UInt64
  slaveof : Option Name
  myslots : Bitmap
  forceAck : Bool
  data : ClusterMsgData Name

variable {Name : Type} [DecidableEq Name]
variable (s : ClusterState Name)

/-- The node whose slots and epoch are announced: the master of a replica that knows it. -/
def announcedMaster (me : ClusterNode Name) : Checked (ClusterNode Name) :=
  match me.role, me.slaveof with
  | .slave, some m => s.node m
  | _, _ => return me

def clusterBuildMessageHdr (forceAck : Bool) (data : ClusterMsgData Name) : Checked (ClusterMsg Name) := do
  let me ← s.node s.myself
  let master ← announcedMaster s me
  return {
    sender := s.myself
    currentEpoch := s.currentEpoch
    configEpoch := master.configEpoch
    slaveof := me.slaveof
    myslots := master.slots
    forceAck := forceAck
    data := data }

/-- Slots that the node stopped claiming are not advertised. -/
def clusterSendUpdate (n : Name) : Checked (ClusterMsg Name) := do
  let node ← s.node n
  clusterBuildMessageHdr s false
    (.update n node.configEpoch fun j => node.slots j && !s.ownerNotClaimingSlot j)

def clusterGetMaxEpoch : UInt64 :=
  s.nodes.entries.foldl (fun max entry => if entry.2.configEpoch > max then entry.2.configEpoch else max) 0 |>
    fun max => if max < s.currentEpoch then s.currentEpoch else max

def takeNextEpoch : Checked (ClusterState Name) := do
  let me ← s.node s.myself
  let s := { s with currentEpoch := s.currentEpoch + 1 }
  return s.setNode s.myself { me with configEpoch := s.currentEpoch }

def clusterBumpConfigEpochWithoutConsensus : Checked (ClusterState Name) := do
  let me ← s.node s.myself
  if me.configEpoch = 0 ∨ me.configEpoch ≠ clusterGetMaxEpoch s then takeNextEpoch s else return s

/-- The names are compared as `memcmp` does. -/
def clusterHandleConfigEpochCollision {Name : Type} [LinearOrder Name] (sender : Name) (s : ClusterState Name) :
    Checked (ClusterState Name) := do
  let node ← s.node sender
  let me ← s.node s.myself
  if node.configEpoch ≠ me.configEpoch ∨ node.role ≠ .master ∨ me.role ≠ .master then return s
  else if sender ≤ s.myself then return s
  else takeNextEpoch s

/-- The loop looks for a claimed slot that is served with a greater epoch. -/
def claimsNewerSlot (s : ClusterState Name) (claimed : Bitmap) (epoch : UInt64) : Checked Bool :=
  (List.finRange clusterSlots).anyM fun j =>
    if !claimed j || isSlotUnclaimed s j then return false
    else
      match s.slots j with
      | none => return false
      | some owner => do
          let node ← s.node owner
          return decide (epoch < node.configEpoch)

/-- A vote and the message that carries it. The arguments are the two readings of the clock, and whether there is a link
to the node. -/
def clusterSendFailoverAuthIfNeeded (config : ClusterConfig) (mstime grantTime : Int) (linked : Bool) (n : Name)
    (request : ClusterMsg Name) (s : ClusterState Name) : Checked (ClusterState Name × Option (ClusterMsg Name)) := do
  let me ← s.node s.myself
  if me.role = .slave ∨ me.numslots = 0 then return (s, none)
  else if request.currentEpoch < s.currentEpoch then return (s, none)
  else if s.lastVoteEpoch = s.currentEpoch then return (s, none)
  else
    let node ← s.node n
    match node.role, node.slaveof with
    | .slave, some m => do
        let master ← s.node m
        if !master.fail ∧ !request.forceAck then return (s, none)
        else if mstime - master.votedTime < config.clusterNodeTimeout * 2 then return (s, none)
        else if ← claimsNewerSlot s request.myslots request.configEpoch then return (s, none)
        else
          let s := { s.setNode m { master with votedTime := grantTime } with lastVoteEpoch := s.currentEpoch }
          if linked then return (s, some (← clusterBuildMessageHdr s false .failoverAuthAck)) else return (s, none)
    | _, _ => return (s, none)

/-- A vote is counted when it comes from a master that serves slots, and not from before the election. -/
def countFailoverAuth (sender : Name) (hdr : ClusterMsg Name) (s : ClusterState Name) :
    Checked (ClusterState Name) := do
  let node ← s.node sender
  if node.role = .master ∧ node.numslots > 0 ∧ s.failoverAuthEpoch ≤ hdr.currentEpoch then
    return { s with failoverAuthCount := s.failoverAuthCount + 1 }
  else return s

variable (env : FailoverEnv) (s : ClusterState Name)

def clusterFailoverReplaceYourMaster : Checked (ClusterState Name) := do
  let me ← s.node s.myself
  match me.role, me.slaveof with
  | .slave, some oldmaster => do
      let s ← clusterSetNodeAsMaster s.myself s
      let s ← clusterMoveNodeSlots oldmaster s.myself s
      return resetManualFailover s
  | _, _ => return s

/-- What the function reads besides the state: the readings of the clock, the time since the last interaction with the
master, a random number and the rank. -/
structure FailoverEnv where
  mstime : Int
  scheduleTime : Int
  startTime : Int
  dataAge : Int
  random : Nat
  rank : Int
  deriving DecidableEq, Repr

/-- What a call of the function does. A request is broadcast to all nodes. -/
structure FailoverResult (Name : Type) where
  state : ClusterState Name
  request : Option (ClusterMsg Name)
  won : Bool

def FailoverResult.idle : FailoverResult Name := ⟨s, none, false⟩

def dataTooOld (config : ClusterConfig) (env : FailoverEnv) : Bool :=
  let dataAge :=
    if env.dataAge > config.clusterNodeTimeout then env.dataAge - config.clusterNodeTimeout else env.dataAge
  config.clusterSlaveValidityFactor ≠ 0 ∧
    dataAge > config.replPingSlavePeriod * 1000 + config.clusterNodeTimeout * config.clusterSlaveValidityFactor

def scheduleElection : ClusterState Name :=
  if s.mfEnd ≠ 0 then
    { s with
      failoverAuthTime := env.scheduleTime, failoverAuthCount := 0, failoverAuthSent := false, failoverAuthRank := 0 }
  else
    { s with
      failoverAuthTime := env.scheduleTime + 500 + env.random % 500 + env.rank * 1000
      failoverAuthCount := 0
      failoverAuthSent := false
      failoverAuthRank := env.rank }

/-- The delay follows the rank until the votes are requested. -/
def updateRank : ClusterState Name :=
  if !s.failoverAuthSent ∧ s.mfEnd = 0 ∧ env.rank > s.failoverAuthRank then
    { s with
      failoverAuthTime := s.failoverAuthTime + (env.rank - s.failoverAuthRank) * 1000
      failoverAuthRank := env.rank }
  else s

def startElection : Checked (FailoverResult Name) := do
  let s := { s with currentEpoch := s.currentEpoch + 1 }
  let s := { s with failoverAuthEpoch := s.currentEpoch }
  let request ← clusterBuildMessageHdr s (decide (s.mfEnd ≠ 0)) .failoverAuthRequest
  return ⟨{ s with failoverAuthSent := true }, some request, false⟩

def winElection : Checked (FailoverResult Name) := do
  let me ← s.node s.myself
  let s := if me.configEpoch < s.failoverAuthEpoch then
      s.setNode s.myself { me with configEpoch := s.failoverAuthEpoch } else s
  return ⟨← clusterFailoverReplaceYourMaster s, none, true⟩

def clusterHandleSlaveFailover (config : ClusterConfig) (env : FailoverEnv) (s : ClusterState Name) :
    Checked (FailoverResult Name) := do
  let authAge := env.mstime - s.failoverAuthTime
  let neededQuorum := s.size / 2 + 1
  let manualFailover := decide (s.mfEnd ≠ 0) && s.mfCanStart
  let authTimeout := max (config.clusterNodeTimeout * 2) 2000
  let authRetryTime := authTimeout * 2
  let me ← s.node s.myself
  match me.role, me.slaveof with
  | .slave, some m => do
      let master ← s.node m
      if (!master.fail ∧ !manualFailover) ∨ (config.clusterSlaveNoFailover ∧ !manualFailover) ∨ master.numslots = 0 then
        return .idle s
      else if dataTooOld config env ∧ !manualFailover then return .idle s
      else if authAge > authRetryTime then return .idle (scheduleElection env s)
      else
        let s := updateRank env s
        if env.startTime < s.failoverAuthTime then return .idle s
        else if authAge > authTimeout then return .idle s
        else if !s.failoverAuthSent then startElection s
        else if s.failoverAuthCount ≥ neededQuorum then winElection s
        else return .idle s
  | _, _ => return .idle s

end Redis.Cluster

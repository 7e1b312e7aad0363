import Redis.Proof.Cluster.EpochRun

namespace Redis.Cluster
open Foundation
variable {Name : Type}

section Restart
variable [DecidableEq Name]

omit [DecidableEq Name] in
theorem le_foldl_epochs (entries : List ((_ : Name) × ClusterNode Name)) (start : UInt64) : start ≤ entries.foldl
        (fun max entry => if entry.2.configEpoch > max then entry.2.configEpoch else max) start ∧
      ∀ entry ∈ entries, entry.2.configEpoch ≤ entries.foldl
        (fun max entry => if entry.2.configEpoch > max then entry.2.configEpoch else max) start := by
  induction entries generalizing start with
  | nil => exact ⟨UInt64.le_refl _, fun entry inside => by cases inside⟩
  | cons first entries ih =>
    rw [List.foldl_cons]
    have next : start ≤ (if first.2.configEpoch > start then first.2.configEpoch else start) ∧
        first.2.configEpoch ≤ (if first.2.configEpoch > start then first.2.configEpoch else start) := by
      split_ifs with greater
      · exact ⟨UInt64.le_of_lt greater, UInt64.le_refl _⟩
      · exact ⟨UInt64.le_refl _, UInt64.not_lt.mp greater⟩
    obtain ⟨above, each⟩ := ih (if first.2.configEpoch > start then first.2.configEpoch else start)
    refine ⟨UInt64.le_trans next.1 above, fun entry inside => ?_⟩
    rcases List.mem_cons.mp inside with same | later
    · rw [same]
      exact UInt64.le_trans next.2 above
    · exact each entry later

theorem configEpoch_le_clusterGetMaxEpoch {s : ClusterState Name} {n : Name} {node : ClusterNode Name}
    (found : s.nodes.lookup n = some node) : node.configEpoch ≤ clusterGetMaxEpoch s := by
  have inside : (⟨n, node⟩ : (_ : Name) × ClusterNode Name) ∈ s.nodes.entries := AList.mem_lookup_iff.mp found
  have below := (le_foldl_epochs s.nodes.entries 0).2 _ inside
  unfold clusterGetMaxEpoch
  dsimp only
  split_ifs with less
  · exact UInt64.le_trans below (UInt64.le_of_lt less)
  · exact below

theorem stable_noElection : Stable fun s : ClusterState Name => s.failoverAuthEpoch = 0 :=
  ⟨fun none _ _ => none, fun none _ _ _ same => same.trans none⟩

theorem loadLine_election (randomShardId : Name → Name) (s : ClusterState Name) (line : SavedNode Name)
    (start : s.failoverAuthEpoch = 0) : Returns (loadLine randomShardId s line) fun s' => s'.failoverAuthEpoch = 0 := by
  have ensured (n : Name) (s : ClusterState Name) (start : s.failoverAuthEpoch = 0) :
      (ensureNode randomShardId n s).failoverAuthEpoch = 0 := by
    unfold ensureNode
    split_ifs <;> exact start
  have identified : Returns (auxShardIdSetter line.name line.shardId (ensureNode randomShardId line.name s))
      fun s' => s'.failoverAuthEpoch = 0 := by
    apply Outcome.node
    intro node _
    refine foldlM_outcome node.slaves ?_ _ (ensured line.name s start)
    exact fun middle slave _ holds => stable_noElection.updateShardId holds slave line.shardId
  apply identified.bind
  intro s₁ start₁
  apply Outcome.node
  intro node _
  have linked (s : ClusterState Name) (start : s.failoverAuthEpoch = 0) :
      Returns (loadMaster randomShardId line.name line.slaveof s) fun s' => s'.failoverAuthEpoch = 0 := by
    unfold loadMaster
    cases line.slaveof with
    | none => exact start
    | some m =>
      apply Outcome.node
      intro master _
      apply Outcome.node
      intro node _
      apply stable_noElection.addSlave
      exact ensured m s start
  apply (linked (s₁.setNode line.name { node with role := line.role, fail := line.fail }) start₁).bind
  intro s₂ start₂
  apply Outcome.node
  intro node _
  refine forSlots_outcome (fun s₃ j start₃ => ?_) _ start₂
  split_ifs
  · exact (stable_noElection.addSlot start₃ line.name j).bind fun _ kept => kept
  · exact start₃

/-- The current epoch is raised to the greatest epoch of the file. -/
theorem clusterLoadConfig_bounded (randomShardId : Name → Name) (failoverAuthSent : Bool) (file : SavedConfig Name) :
    Returns (clusterLoadConfig randomShardId failoverAuthSent file)
      fun loaded => ∀ s ∈ loaded, s.Bounded := by
  have read : Returns (file.nodes.foldlM (loadLine randomShardId) (clusterInit file failoverAuthSent))
      fun s => s.failoverAuthEpoch = 0 := by
    refine foldlM_outcome file.nodes ?_ (clusterInit file failoverAuthSent) rfl
    intro s line _ holds
    exact loadLine_election randomShardId s line holds
  apply read.bind
  intro s election
  cases s.nodes.lookup s.myself with
  | none =>
    intro s' inside
    cases inside
  | some me =>
    dsimp only
    split_ifs with refused behind
    · intro s' inside
      cases inside
    · intro s' inside
      cases inside
      refine ⟨fun n node found => configEpoch_le_clusterGetMaxEpoch found, ?_⟩
      rw [election]
      exact UInt64.zero_le
    · intro s' inside
      cases inside
      refine ⟨fun n node found => ?_, ?_⟩
      · exact UInt64.le_trans (configEpoch_le_clusterGetMaxEpoch found) (UInt64.not_lt.mp behind)
      · rw [election]
        exact UInt64.zero_le
end Restart

section Network
variable [LinearOrder Name]

/-- No epoch is ahead at a server or in a message. -/
structure Network.Bounded (w : Network Name) : Prop where
  servers : ∀ server, (w.servers server).Bounded
  messages : ∀ hdr ∈ w.sent, hdr.Bounded

/-- A step that can take a new epoch is not made at the last one. -/
def NetworkEvent.Room (w : Network Name) : NetworkEvent Name → Prop
  | .deliver server position _ _ =>
    ∀ hdr ∈ w.sent[position]?, hdr.data.isPing → epochAfter (w.servers server) hdr ≠ lastEpoch
  | .command server _ subcommand => subcommand.takesEpoch → (w.servers server).currentEpoch ≠ lastEpoch
  | .slaveFailover server _ => (w.servers server).currentEpoch ≠ lastEpoch
  | _ => True

/-- Every step of a run has room for its epoch. -/
def Network.Roomy (config : Name → ClusterConfig) : Network Name → List (NetworkEvent Name) → Prop
  | _, [] => True
  | w, event :: events => event.Room w ∧ Network.Roomy config (w.step config event) events

theorem Network.Bounded.update {w : Network Name} (bounded : w.Bounded) (server : Name) {s : ClusterState Name}
    (holds : s.Bounded) {messages : List (ClusterMsg Name)} (sent : ∀ hdr ∈ messages, hdr.Bounded) :
    Network.Bounded { w with servers := Function.update w.servers server s, sent := w.sent ++ messages } := by
  constructor
  · intro other
    by_cases same : other = server
    · subst same
      simpa using holds
    · simpa [Function.update_of_ne same] using bounded.servers other
  · intro hdr inside
    rcases List.mem_append.mp inside with old | new
    · exact bounded.messages hdr old
    · exact sent hdr new

theorem handle_bounded (config : ClusterConfig) (server : Name) (event : Event Name) {w : Network Name}
    (bounded : w.Bounded) (carried : event.Carried) (room : event.Room (w.servers server)) :
    (w.handle config server event).Bounded := by
  have stepped := step_bounded config (w.servers server) event (bounded.servers server) carried room
  unfold Network.handle
  cases returned : (w.servers server).step config event with
  | error fault => exact bounded
  | ok result =>
    obtain ⟨holds, sent⟩ := stepped.of_ok returned
    exact bounded.update server holds sent

theorem build_bounded (message : Outgoing Name) (s : ClusterState Name) (bounded : s.Bounded) :
    Returns (message.build s) ClusterMsg.Bounded := by
  cases message with
  | ping kind gossip shardId forgotten => exact clusterBuildMessageHdr_bounded s false bounded trivial
  | fail about => exact clusterBuildMessageHdr_bounded s false bounded trivial
  | publish => exact clusterBuildMessageHdr_bounded s false bounded trivial
  | mfstart => exact clusterBuildMessageHdr_bounded s false bounded trivial
  | update n => exact clusterSendUpdate_bounded s n bounded
  | moduleData => exact clusterBuildMessageHdr_bounded s false bounded trivial

theorem networkStep_bounded (config : Name → ClusterConfig) (event : NetworkEvent Name) {w : Network Name}
    (bounded : w.Bounded) (room : event.Room w) : (w.step config event).Bounded := by
  cases event with
  | deliver server position env link =>
    rw [Network.step]
    cases found : w.sent[position]? with
    | none => exact bounded
    | some hdr =>
      apply handle_bounded (config server) server _ bounded
      · exact bounded.messages hdr (List.mem_of_getElem? found)
      · exact room hdr found
  | send server message =>
    rw [Network.step]
    cases built : message.build (w.servers server) with
    | error fault => exact bounded
    | ok hdr =>
      refine ⟨bounded.servers, fun other inside => ?_⟩
      rcases List.mem_append.mp inside with old | new
      · exact bounded.messages other old
      · rw [List.mem_singleton.mp new]
        exact (build_bounded message _ (bounded.servers server)).of_ok built
  | command server env subcommand => exact handle_bounded (config server) server (.command env subcommand) bounded trivial room
  | slaveFailover server env => exact handle_bounded (config server) server (.slaveFailover env) bounded trivial room
  | handshake server n role shardId => exact handle_bounded (config server) server (.handshake n role shardId) bounded trivial trivial
  | updateState server => exact handle_bounded (config server) server .updateState bounded trivial trivial
  | manualFailoverReady server => exact handle_bounded (config server) server .manualFailoverReady bounded trivial trivial
  | manualFailoverTimeout server => exact handle_bounded (config server) server .manualFailoverTimeout bounded trivial trivial
  | save server =>
    rw [Network.step]
    cases clusterSaveConfig (w.servers server) with
    | error fault => exact bounded
    | ok file => exact ⟨bounded.servers, bounded.messages⟩
  | restart server randomShardId failoverAuthSent =>
    rw [Network.step]
    cases w.files server with
    | none => exact bounded
    | some file =>
      have loaded := clusterLoadConfig_bounded randomShardId failoverAuthSent file
      rw [Option.map_some]
      cases result : clusterLoadConfig randomShardId failoverAuthSent file with
      | error fault => exact bounded
      | ok state =>
        cases state with
        | none => exact bounded
        | some s =>
          have holds := loaded.of_ok result s rfl
          have nothing : ∀ hdr ∈ ([] : List (ClusterMsg Name)), hdr.Bounded := fun hdr inside => by cases inside
          have updated := bounded.update server holds nothing
          rw [List.append_nil] at updated
          exact updated

/-- In every run that takes no epoch after the last one, the current epoch of each server is at least every epoch that
it recorded, each message carries a current epoch that is at least its other epochs, and so the next epoch is new. -/
theorem network_epochs_behind (config : Name → ClusterConfig) (w : Network Name) (events : List (NetworkEvent Name))
    (start : w.Bounded) (room : w.Roomy config events) :
    (w.run config events).Bounded ∧
      ∀ server n node, ((w.run config events).servers server).nodes.lookup n = some node →
        ((w.run config events).servers server).currentEpoch ≠ lastEpoch →
        node.configEpoch < ((w.run config events).servers server).currentEpoch + 1 := by
  have bounded : (w.run config events).Bounded := by
    induction events generalizing w with
    | nil => exact start
    | cons event events ih => exact ih (w.step config event) (networkStep_bounded config event start room.1) room.2
  refine ⟨bounded, fun server n node found below => ?_⟩
  have behind := (bounded.servers server).nodes n node found
  have next := lt_add_one_of_ne below
  exact UInt64.lt_of_le_of_lt behind next
end Network

def plainMaster (configEpoch : UInt64) : ClusterNode Nat :=
  { createClusterNode .master false 0 with configEpoch := configEpoch }

/-- A server that knows itself and one other master. -/
def sampleServer (currentEpoch configEpoch : UInt64) : ClusterState Nat :=
  ((clusterInit ⟨0, [], fun _ => none, fun _ => none, currentEpoch, 0⟩ false).setNode 0 (plainMaster 0)).setNode 1
    (plainMaster configEpoch)

def sampleNetwork (currentEpoch configEpoch : UInt64) : Network Nat :=
  ⟨fun _ => sampleServer currentEpoch configEpoch, fun _ => none, []⟩

def sampleConfig : ClusterConfig := ⟨15000, false, 10, 10, true, false⟩

def bumpEvents : List (NetworkEvent Nat) := [.command 0 ⟨0, false, fun _ => 0, 0, false⟩ .bumpepoch]

theorem sampleNetwork_bounded {currentEpoch configEpoch : UInt64} (behind : configEpoch ≤ currentEpoch) :
    (sampleNetwork currentEpoch configEpoch).Bounded := by
  refine ⟨fun server => ⟨fun n node found => ?_, UInt64.zero_le⟩, fun hdr inside => by cases inside⟩
  change (sampleServer currentEpoch configEpoch).nodes.lookup n = some node at found
  rw [sampleServer, lookup_setNode, lookup_setNode] at found
  split_ifs at found
  · cases found
    exact behind
  · cases found
    exact UInt64.zero_le
  · cases found

/-- A bump below the last epoch keeps the bound. -/
theorem network_epochs_behind_bump :
    (sampleNetwork 7 5).Bounded ∧ ((sampleNetwork 7 5).run (fun _ => sampleConfig) bumpEvents).Bounded := by
  have start : (sampleNetwork 7 5).Bounded := sampleNetwork_bounded (by decide)
  have room : (sampleNetwork 7 5).Roomy (fun _ => sampleConfig) bumpEvents := by
    refine ⟨fun _ => ?_, trivial⟩
    decide
  exact ⟨start, (network_epochs_behind (fun _ => sampleConfig) (sampleNetwork 7 5) bumpEvents start room).1⟩

/-- A bump at the last epoch makes the current epoch zero, behind the epoch of the other master. -/
theorem network_epoch_wraps : (sampleNetwork lastEpoch 5).Bounded ∧
      ¬ ((sampleNetwork lastEpoch 5).run (fun _ => sampleConfig) bumpEvents).Bounded := by
  refine ⟨sampleNetwork_bounded (by decide), fun bounded => ?_⟩
  have behind := (bounded.servers 0).nodes 1 (plainMaster 5) (by rfl)
  revert behind
  decide +kernel

end Redis.Cluster

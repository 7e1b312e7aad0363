import Redis.Construction.Cluster.Network
import Redis.Proof.Cluster.Frame

namespace Redis.Cluster
open Foundation
variable {Name : Type} [DecidableEq Name]
variable {epoch : UInt64} (n : Name) (s : ClusterState Name) (senderConfigEpoch : UInt64)

/-- The current epoch is at least every recorded epoch and that of the last election of this server. -/
structure ClusterState.Bounded (s : ClusterState Name) : Prop where
  nodes : ∀ n node, s.nodes.lookup n = some node → node.configEpoch ≤ s.currentEpoch
  election : s.failoverAuthEpoch ≤ s.currentEpoch

def ClusterMsgData.Bounded (epoch : UInt64) : ClusterMsgData Name → Prop
  | .update _ configEpoch _ => configEpoch ≤ epoch
  | _ => True

/-- The current epoch of a message is at least the other epochs that it carries. -/
structure ClusterMsg.Bounded (hdr : ClusterMsg Name) : Prop where
  configEpoch : hdr.configEpoch ≤ hdr.currentEpoch
  data : hdr.data.Bounded hdr.currentEpoch

/-- The bound holds and the current epoch is known. -/
def BoundedAt (epoch : UInt64) (s : ClusterState Name) : Prop := s.Bounded ∧ s.currentEpoch = epoch

theorem BoundedAt.setNode {s : ClusterState Name} (bounded : BoundedAt epoch s) (n : Name) {node : ClusterNode Name}
    (behind : node.configEpoch ≤ epoch) : BoundedAt epoch (s.setNode n node) := by
  obtain ⟨⟨nodes, election⟩, current⟩ := bounded
  refine ⟨⟨?_, election⟩, current⟩
  intro k node' found
  rw [lookup_setNode] at found
  split_ifs at found with same
  · cases found
    change node.configEpoch ≤ s.currentEpoch
    rw [current]
    exact behind
  · exact nodes k node' found

theorem BoundedAt.sameEpoch {s : ClusterState Name} {n : Name} {old new : ClusterNode Name} (bounded : BoundedAt epoch s)
    (found : s.nodes.lookup n = some old) (same : new.configEpoch = old.configEpoch) :
    BoundedAt epoch (s.setNode n new) := by
  apply bounded.setNode n
  rw [same, ← bounded.2]
  exact bounded.1.nodes n old found

/-- No change that keeps the epochs of the nodes breaks the bound. -/
theorem detachable_boundedAt : Detachable (BoundedAt epoch : ClusterState Name → Prop) := by
  refine ⟨⟨fun bounded found same => bounded.sameEpoch found (congrArg Prod.fst same), ?_⟩,
    fun bounded found same _ => bounded.sameEpoch found same, ?_⟩
  · rintro s s' ⟨⟨nodes, election⟩, current⟩ sameNodes _ sameEpoch sameElection
    refine ⟨⟨?_, ?_⟩, sameEpoch.trans current⟩
    · rwa [sameNodes, sameEpoch]
    · rwa [sameElection, sameEpoch]
  · rintro s n ⟨⟨nodes, election⟩, current⟩
    refine ⟨⟨fun k node found => ?_, election⟩, current⟩
    by_cases same : k = n
    · subst same
      cases (AList.lookup_erase k s.nodes).symm.trans found
    · exact nodes k node ((AList.lookup_erase_ne same).symm.trans found)

theorem ClusterState.Bounded.at {s : ClusterState Name} (bounded : s.Bounded) : BoundedAt s.currentEpoch s :=
  ⟨bounded, rfl⟩

def epochAfter (s : ClusterState Name) (hdr : ClusterMsg Name) : UInt64 :=
  if hdr.currentEpoch > s.currentEpoch then hdr.currentEpoch else s.currentEpoch

omit [DecidableEq Name] in
theorem currentEpoch_le_epochAfter (hdr : ClusterMsg Name) :
    s.currentEpoch ≤ epochAfter s hdr ∧ hdr.currentEpoch ≤ epochAfter s hdr := by
  unfold epochAfter
  split_ifs with ahead
  · exact ⟨UInt64.le_of_lt ahead, UInt64.le_refl _⟩
  · exact ⟨UInt64.le_refl _, UInt64.not_lt.mp ahead⟩

theorem ClusterState.Bounded.raise {s : ClusterState Name} (bounded : s.Bounded) (ahead : s.currentEpoch ≤ epoch) :
    BoundedAt epoch { s with currentEpoch := epoch } :=
  ⟨⟨fun n node found => UInt64.le_trans (bounded.nodes n node found) ahead,
    UInt64.le_trans bounded.election ahead⟩, rfl⟩

omit [DecidableEq Name] in
theorem raise_eq (hdr : ClusterMsg Name) :
    (if hdr.currentEpoch > s.currentEpoch then { s with currentEpoch := hdr.currentEpoch } else s) =
      { s with currentEpoch := epochAfter s hdr } := by
  unfold epochAfter
  split_ifs <;> rfl

theorem updateEpochs_bounded (sender : Name) {hdr : ClusterMsg Name} (s : ClusterState Name) (bounded : s.Bounded)
    (message : hdr.Bounded) :
    Returns (updateEpochs sender hdr s) (BoundedAt (epochAfter s hdr)) := by
  obtain ⟨ours, theirs⟩ := currentEpoch_le_epochAfter s hdr
  have raised := bounded.raise ours
  apply Outcome.node
  intro node _
  rw [raise_eq]
  by_cases newer : hdr.configEpoch > node.configEpoch
  · rw [if_pos newer]
    exact raised.setNode sender (UInt64.le_trans message.configEpoch theirs)
  · rw [if_neg newer]
    exact raised

theorem moveToNewMaster_bounded (sender m : Name) {senderConfigEpoch epoch : UInt64} (s : ClusterState Name)
    (bounded : BoundedAt epoch s) (behind : senderConfigEpoch ≤ epoch) :
    Returns (moveToNewMaster sender m senderConfigEpoch s) (BoundedAt epoch) := by
  apply (detachable_boundedAt.moveNodeSlots bounded sender m).bind
  intro s₁ bounded₁
  apply (detachable_boundedAt.setNodeAsMaster bounded₁ m).bind
  intro s₂ bounded₂
  apply Outcome.node
  intro node _
  exact bounded₂.setNode m behind

theorem demoteSender_bounded (sender : Name) (master : Option Name) {senderConfigEpoch epoch : UInt64}
    (s : ClusterState Name) (bounded : BoundedAt epoch s) (behind : senderConfigEpoch ≤ epoch) :
    Returns (demoteSender sender master senderConfigEpoch s) (BoundedAt epoch) := by
  apply Outcome.node
  intro node _
  cases sameShardMaster sender master s with
  | error fault => trivial
  | ok same =>
    apply Outcome.bind (show Returns _ (BoundedAt epoch) from ?_)
    · intro s' bounded'
      apply Outcome.node
      intro node found
      exact bounded'.sameEpoch found rfl
    · cases same with
      | none => exact detachable_boundedAt.delNodeSlots bounded sender
      | some m =>
        split_ifs
        · exact bounded
        · exact moveToNewMaster_bounded sender m s bounded behind

theorem checkRoleSwitch_bounded (sender : Name) {hdr : ClusterMsg Name} (s : ClusterState Name)
    (bounded : BoundedAt epoch s) (behind : hdr.configEpoch ≤ epoch) :
    Returns (checkRoleSwitch sender hdr s) (BoundedAt epoch) := by
  unfold checkRoleSwitch
  cases hdr.slaveof with
  | none => exact detachable_boundedAt.setNodeAsMaster bounded sender
  | some slaveof =>
    dsimp only
    generalize (if (s.nodes.lookup slaveof).isSome then some slaveof else none) = master
    apply Outcome.node
    intro node _
    have demoted : Returns (if node.role = .master then demoteSender sender master hdr.configEpoch s else return s)
        (BoundedAt epoch) := by
      split_ifs
      · exact demoteSender_bounded sender master s bounded behind
      · exact bounded
    apply demoted.bind
    intro s' bounded'
    cases master with
    | none => exact bounded'
    | some m =>
      have stable : Stable (BoundedAt epoch : ClusterState Name → Prop) := detachable_boundedAt.toStable
      exact stable.changeMaster stable bounded' (fun _ => id) fun _ _ bounded found => bounded.sameEpoch found rfl

theorem clusterSetMaster_bounded (n : Name) (s : ClusterState Name) (bounded : BoundedAt epoch s) :
    Returns (clusterSetMaster n s) (BoundedAt epoch) := by
  apply Stable.setMaster detachable_boundedAt.toStable detachable_boundedAt.toStable
  · exact fun _ found _ => bounded.sameEpoch found rfl
  · exact fun _ _ _ => bounded
  · exact fun _ _ bounded found => bounded.sameEpoch found rfl

theorem clusterUpdateSlotsConfigWith_bounded (config : ClusterConfig) (sender : Name) (senderConfigEpoch : UInt64)
    (slots : Bitmap) (s : ClusterState Name) (bounded : BoundedAt epoch s) :
    Returns (clusterUpdateSlotsConfigWith config sender senderConfigEpoch slots s) (BoundedAt epoch) := by
  apply Stable.slotsConfig detachable_boundedAt.toStable config _ _ bounded bounded
  · exact fun _ => id
  · exact fun _ => clusterSetMaster_bounded sender
  · exact fun s n bounded _ => clusterSetMaster_bounded n s bounded

/-- The greatest value of an epoch. -/
def lastEpoch : UInt64 := 18446744073709551615

theorem lt_add_one_of_ne (room : epoch ≠ lastEpoch) : epoch < epoch + 1 := by
  unfold lastEpoch at room
  grind

theorem takeNextEpoch_bounded (bounded : BoundedAt epoch s) (room : epoch ≠ lastEpoch) :
    Returns (takeNextEpoch s) ClusterState.Bounded := by
  obtain ⟨bounded, rfl⟩ := bounded
  have raised := bounded.raise (UInt64.le_of_lt (lt_add_one_of_ne room))
  apply Outcome.node
  intro me _
  exact (raised.setNode s.myself (UInt64.le_refl _)).1

theorem clusterBumpConfigEpochWithoutConsensus_bounded (bounded : s.Bounded) (room : s.currentEpoch ≠ lastEpoch) :
    Returns (clusterBumpConfigEpochWithoutConsensus s) ClusterState.Bounded := by
  apply Outcome.node
  intro me _
  split_ifs
  · exact takeNextEpoch_bounded s bounded.at room
  · exact bounded

theorem clusterHandleConfigEpochCollision_bounded {Name : Type} [LinearOrder Name] (sender : Name)
    (s : ClusterState Name) (bounded : BoundedAt epoch s) (room : epoch ≠ lastEpoch) :
    Returns (clusterHandleConfigEpochCollision sender s) ClusterState.Bounded := by
  apply Outcome.node
  intro node _
  apply Outcome.node
  intro me _
  split_ifs
  · exact bounded.1
  · exact bounded.1
  · exact takeNextEpoch_bounded s bounded room

theorem processGossip_bounded (env : PacketEnv Name) (sender : Name) (s : ClusterState Name) (g : GossipEntry Name)
    (bounded : s.Bounded) : Returns (processGossip env sender s g) ClusterState.Bounded := by
  apply Outcome.node
  intro reporter _
  cases known : s.nodes.lookup g.nodename with
  | some node =>
    dsimp only
    split_ifs
    · have kept : BoundedAt s.currentEpoch (s.setNode g.nodename { node with fail := true }) :=
        bounded.at.sameEpoch known rfl
      exact kept.1
    · exact bounded
  | none =>
    dsimp only
    split_ifs
    · exact bounded
    · exact (bounded.at.setNode g.nodename UInt64.zero_le).1

theorem announcedMaster_outcome {n : Name} {node : ClusterNode Name} (found : s.nodes.lookup n = some node) :
    Returns (announcedMaster s node) fun master => ∃ m, s.nodes.lookup m = some master := by
  unfold announcedMaster
  split
  · rw [ClusterState.node]
    split
    · exact ⟨_, ‹_›⟩
    · trivial
  · exact ⟨n, found⟩

theorem clusterBuildMessageHdr_bounded (forceAck : Bool) {data : ClusterMsgData Name} (bounded : s.Bounded)
    (behind : data.Bounded s.currentEpoch) :
    Returns (clusterBuildMessageHdr s forceAck data) ClusterMsg.Bounded := by
  apply Outcome.node
  intro me found
  apply (announcedMaster_outcome s found).bind
  rintro master ⟨m, known⟩
  exact ⟨bounded.nodes m master known, behind⟩

theorem clusterSendUpdate_bounded (n : Name) (bounded : s.Bounded) :
    Returns (clusterSendUpdate s n) ClusterMsg.Bounded := by
  apply Outcome.node
  intro node found
  apply clusterBuildMessageHdr_bounded s false bounded
  exact bounded.nodes n node found

end Redis.Cluster

import Redis.Proof.Cluster.Epochs

namespace Redis.Cluster
open Foundation
variable {Name : Type}
variable (config : ClusterConfig) (env : PacketEnv Name) (sender : Name) (hdr : ClusterMsg Name) (n : Name)
  (s : ClusterState Name)

section Packet
variable [LinearOrder Name]

/-- A state and the message that is sent are bounded. -/
def ReplyBounded (result : ClusterState Name × Option (ClusterMsg Name)) : Prop :=
  result.1.Bounded ∧ ∀ message ∈ result.2, message.Bounded

theorem clusterProcessGossipSection_bounded (gossip : List (GossipEntry Name)) (s : ClusterState Name)
    (bounded : s.Bounded) :
    Returns (clusterProcessGossipSection env sender gossip s) ClusterState.Bounded := by
  apply foldlM_outcome _ _ s bounded
  intro middle entry _ holds
  exact processGossip_bounded env sender middle entry holds

theorem newerOwner_update_bounded (dirty : Bool) (sender : Name) (hdr : ClusterMsg Name) (s : ClusterState Name)
    (bounded : s.Bounded) :
    Returns (if dirty = true then do
        match ← newerOwner sender hdr s with
        | some owner => return some (← clusterSendUpdate s owner)
        | none => return none
      else return none : Checked (Option (ClusterMsg Name)))
      fun update => ∀ message ∈ update, message.Bounded := by
  cases dirty with
  | false => simp
  | true =>
    cases newerOwner sender hdr s with
    | error fault => trivial
    | ok owner =>
      cases owner with
      | none =>
        intro message inside
        cases inside
      | some owner =>
        apply (clusterSendUpdate_bounded s owner bounded).bind
        intro built holds message inside
        cases inside
        exact holds

theorem processPing_bounded (gossip : List (GossipEntry Name)) (shardId : Option Name) (forgotten : List Name)
    {hdr : ClusterMsg Name} {epoch : UInt64} (s : ClusterState Name) (bounded : BoundedAt epoch s)
    (behind : hdr.configEpoch ≤ epoch) (room : epoch ≠ lastEpoch) :
    Returns (processPing config env sender gossip shardId forgotten hdr s) ReplyBounded := by
  apply (checkRoleSwitch_bounded sender s bounded behind).bind
  intro s₁ bounded₁
  cases dirtySlots sender hdr s₁ with
  | error fault => trivial
  | ok dirty =>
    apply Outcome.node
    intro node _
    have slots : Returns (if node.role = .master ∧ dirty = true then
        clusterUpdateSlotsConfigWith config sender hdr.configEpoch hdr.myslots s₁ else return s₁)
        (BoundedAt epoch) := by
      split_ifs
      · exact clusterUpdateSlotsConfigWith_bounded config sender _ _ s₁ bounded₁
      · exact bounded₁
    apply slots.bind
    intro s₂ bounded₂
    apply (newerOwner_update_bounded dirty sender hdr s₂ bounded₂.1).bind
    intro update messages
    apply Outcome.node
    intro node _
    apply Outcome.node
    intro me _
    have collision : Returns (if me.role = .master ∧ node.role = .master ∧ hdr.configEpoch = me.configEpoch then
        clusterHandleConfigEpochCollision sender s₂ else return s₂) ClusterState.Bounded := by
      split_ifs
      · exact clusterHandleConfigEpochCollision_bounded sender s₂ bounded₂ room
      · exact bounded₂.1
    apply collision.bind
    intro s₃ bounded₃
    apply (clusterProcessGossipSection_bounded env sender gossip s₃ bounded₃).bind
    intro s₄ bounded₄
    apply (detachable_boundedAt.pingExtensions bounded₄.at sender shardId forgotten).bind
    intro s₅ bounded₅
    exact ⟨bounded₅.1, messages⟩

theorem processUpdate_bounded (nodename : Name) {reportedConfigEpoch epoch : UInt64} (slots : Bitmap)
    (s : ClusterState Name) (bounded : BoundedAt epoch s) (behind : reportedConfigEpoch ≤ epoch) :
    Returns (processUpdate config nodename reportedConfigEpoch slots s) (BoundedAt epoch) := by
  unfold processUpdate
  cases s.nodes.lookup nodename with
  | none => exact bounded
  | some n =>
    dsimp only
    by_cases known : n.configEpoch ≥ reportedConfigEpoch
    · rw [if_pos known]
      exact bounded
    · rw [if_neg known]
      have promoted : Returns (if n.role = .slave then clusterSetNodeAsMaster nodename s else return s) (BoundedAt epoch) := by
        split_ifs
        · exact detachable_boundedAt.setNodeAsMaster bounded nodename
        · exact bounded
      apply promoted.bind
      intro s₁ bounded₁
      apply Outcome.node
      intro node _
      exact clusterUpdateSlotsConfigWith_bounded config nodename _ slots _ (bounded₁.setNode nodename behind)

theorem processFail_bounded (about : Name) (s : ClusterState Name) {epoch : UInt64} (bounded : BoundedAt epoch s) :
    BoundedAt epoch (processFail about s) := by
  unfold processFail
  cases known : s.nodes.lookup about with
  | none => exact bounded
  | some node =>
    dsimp only
    split_ifs
    · exact bounded
    · exact bounded.sameEpoch known rfl

theorem clusterSendFailoverAuthIfNeeded_bounded (mstime grantTime : Int) (linked : Bool) (n : Name)
    (request : ClusterMsg Name) (s : ClusterState Name) (bounded : s.Bounded) :
    Returns (clusterSendFailoverAuthIfNeeded config mstime grantTime linked n request s) ReplyBounded := by
  have silent : ReplyBounded (s, none) := ⟨bounded, fun message inside => by cases inside⟩
  apply Outcome.node
  intro me _
  split
  · exact silent
  split
  · exact silent
  split
  · exact silent
  apply Outcome.node
  intro node _
  split
  · rename_i m _ _
    apply Outcome.node
    intro master found
    split
    · exact silent
    split
    · exact silent
    cases claimsNewerSlot s request.myslots request.configEpoch with
    | error fault => trivial
    | ok newer =>
      cases newer with
      | true => exact silent
      | false =>
        have voted : BoundedAt s.currentEpoch (s.setNode m { master with votedTime := grantTime }) :=
          bounded.at.sameEpoch found rfl
        have holds : ClusterState.Bounded { s.setNode m { master with votedTime := grantTime } with
            lastVoteEpoch := s.currentEpoch } := ⟨voted.1.nodes, voted.1.election⟩
        cases linked with
        | false => exact ⟨holds, fun message inside => by cases inside⟩
        | true =>
          have plain : (ClusterMsgData.failoverAuthAck : ClusterMsgData Name).Bounded s.currentEpoch := trivial
          apply (clusterBuildMessageHdr_bounded _ false holds plain).bind
          intro ack built
          exact ⟨holds, fun message inside => by cases inside; exact built⟩
  · exact silent

theorem countFailoverAuth_bounded (bounded : s.Bounded) :
    Returns (countFailoverAuth sender hdr s) ClusterState.Bounded := by
  apply Outcome.node
  intro node _
  split_ifs
  · exact ⟨bounded.nodes, bounded.election⟩
  · exact bounded

/-- Whether a packet can make this server take a new epoch. -/
def ClusterMsgData.isPing : ClusterMsgData Name → Bool
  | .ping .. => true
  | _ => false

theorem clusterProcessPacket_bounded (link : ClusterLink Name) (hdr : ClusterMsg Name) (s : ClusterState Name)
    (bounded : s.Bounded) (message : hdr.Bounded) (room : hdr.data.isPing → epochAfter s hdr ≠ lastEpoch) :
    Returns (clusterProcessPacket config env link hdr s) ReplyBounded := by
  have silent {s' : ClusterState Name} (holds : s'.Bounded) : ReplyBounded (s', none) :=
    ⟨holds, fun message inside => by cases inside⟩
  have theirs := (currentEpoch_le_epochAfter s hdr).2
  unfold clusterProcessPacket
  cases getNodeFromLinkAndMsg link hdr s with
  | none => exact silent bounded
  | some sender =>
    apply (updateEpochs_bounded sender s bounded message).bind
    intro s₁ bounded₁
    have carried := message.data
    cases data : hdr.data with
    | ping kind gossip shardId forgotten =>
      dsimp only
      by_cases other : !link.inbound ∧ sender ≠ hdr.sender
      · rw [if_pos other]
        exact silent bounded₁.1
      · rw [if_neg other]
        have cleared : Returns (if !link.inbound ∧ kind = .pong then clearNodeFailureIfNeeded env sender s₁
            else return s₁) (BoundedAt (epochAfter s hdr)) := by
          split_ifs
          · exact detachable_boundedAt.clearNodeFailure bounded₁ env sender
          · exact bounded₁
        apply cleared.bind
        intro s₂ bounded₂
        apply processPing_bounded config env sender gossip shardId forgotten s₂ bounded₂
        · exact UInt64.le_trans message.configEpoch theirs
        · exact room (by rw [data]; rfl)
    | fail about => exact silent (processFail_bounded about s₁ bounded₁).1
    | publish => exact silent bounded₁.1
    | failoverAuthRequest =>
      exact clusterSendFailoverAuthIfNeeded_bounded config env.mstime env.grantTime link.linked sender hdr s₁
        bounded₁.1
    | failoverAuthAck =>
      apply (countFailoverAuth_bounded sender hdr s₁ bounded₁.1).bind
      intro s₂ bounded₂
      exact silent bounded₂
    | mfstart =>
      apply Outcome.node
      intro node _
      split_ifs
      · exact silent bounded₁.1
      · exact silent ⟨bounded₁.1.nodes, bounded₁.1.election⟩
    | update nodename reportedConfigEpoch slots =>
      rw [data] at carried
      apply (processUpdate_bounded config nodename slots s₁ bounded₁ (UInt64.le_trans carried theirs)).bind
      intro s₂ bounded₂
      exact silent bounded₂.1
    | moduleData => exact silent bounded₁.1
end Packet

section Failover
variable [DecidableEq Name]

theorem clusterFailoverReplaceYourMaster_bounded (bounded : s.Bounded) :
    Returns (clusterFailoverReplaceYourMaster s) ClusterState.Bounded := by
  apply Outcome.node
  intro me _
  split
  · rename_i oldmaster _ _
    apply (detachable_boundedAt.setNodeAsMaster bounded.at s.myself).bind
    intro s₁ bounded₁
    apply (detachable_boundedAt.moveNodeSlots bounded₁ oldmaster s₁.myself).bind
    intro s₂ bounded₂
    exact ⟨bounded₂.1.nodes, bounded₂.1.election⟩
  · exact bounded

/-- The epochs of a result and of the request that is broadcast. -/
def FailoverResult.Bounded (result : FailoverResult Name) : Prop :=
  result.state.Bounded ∧ ∀ message ∈ result.request, message.Bounded

theorem startElection_bounded (bounded : s.Bounded) (room : s.currentEpoch ≠ lastEpoch) :
    Returns (startElection s) FailoverResult.Bounded := by
  have raised := bounded.raise (UInt64.le_of_lt (lt_add_one_of_ne room))
  set started := { s with currentEpoch := s.currentEpoch + 1, failoverAuthEpoch := s.currentEpoch + 1 }
  have holds : started.Bounded := ⟨raised.1.nodes, UInt64.le_refl _⟩
  have plain : (ClusterMsgData.failoverAuthRequest : ClusterMsgData Name).Bounded started.currentEpoch := trivial
  apply (clusterBuildMessageHdr_bounded started (decide (started.mfEnd ≠ 0)) holds plain).bind
  intro request built
  refine ⟨⟨holds.nodes, holds.election⟩, fun message inside => ?_⟩
  cases inside
  exact built

theorem winElection_bounded (bounded : s.Bounded) : Returns (winElection s) FailoverResult.Bounded := by
  apply Outcome.node
  intro me _
  have promoted : ClusterState.Bounded (if me.configEpoch < s.failoverAuthEpoch then
      s.setNode s.myself { me with configEpoch := s.failoverAuthEpoch } else s) := by
    split_ifs
    · exact (bounded.at.setNode s.myself bounded.election).1
    · exact bounded
  apply (clusterFailoverReplaceYourMaster_bounded _ promoted).bind
  intro s' bounded'
  exact ⟨bounded', fun message inside => by cases inside⟩

theorem clusterHandleSlaveFailover_bounded (env : FailoverEnv) (s : ClusterState Name) (bounded : s.Bounded)
    (room : s.currentEpoch ≠ lastEpoch) :
    Returns (clusterHandleSlaveFailover config env s) FailoverResult.Bounded := by
  have idle {s' : ClusterState Name} (holds : s'.Bounded) : (FailoverResult.idle s').Bounded :=
    ⟨holds, fun message inside => by cases inside⟩
  have scheduled : (scheduleElection env s).Bounded := by
    unfold scheduleElection
    split_ifs <;> exact ⟨bounded.nodes, bounded.election⟩
  have ranked : BoundedAt s.currentEpoch (updateRank env s) := by
    unfold updateRank
    split_ifs <;> exact ⟨⟨bounded.nodes, bounded.election⟩, rfl⟩
  apply Outcome.node
  intro me _
  split
  · apply Outcome.node
    intro master _
    split
    · exact idle bounded
    split
    · exact idle bounded
    split
    · exact idle scheduled
    dsimp only
    split
    · exact idle ranked.1
    split
    · exact idle ranked.1
    split
    · exact startElection_bounded _ ranked.1 (ranked.2 ▸ room)
    split
    · exact winElection_bounded _ ranked.1
    · exact idle ranked.1
  · exact idle bounded
end Failover

section Command
variable [DecidableEq Name]

theorem commandResult_bounded {computation : Checked (ClusterState Name)} {epoch : UInt64}
    (kept : Returns computation (BoundedAt epoch)) :
    Returns (computation >>= fun s' => pure (s', none) : Checked (CommandResult Name)) fun result => result.1.Bounded :=
  kept.bind fun _ bounded => bounded.1

theorem withTarget_bounded (unknown : CommandError Name) (s : ClusterState Name) (bounded : s.Bounded)
    {next : Checked (CommandResult Name)} (rest : Returns next fun result => result.1.Bounded) :
    Returns (withTarget n unknown s next) fun result => result.1.Bounded := by
  unfold withTarget
  cases s.nodes.lookup n with
  | none => exact bounded
  | some node =>
    dsimp only
    split_ifs
    · exact bounded
    · exact rest

theorem setslotNode_bounded (env : CommandEnv) (slot : Slot) (n : Name) (s : ClusterState Name) (bounded : s.Bounded)
    (room : s.currentEpoch ≠ lastEpoch) :
    Returns (setslotNode config env slot n s) fun result => result.1.Bounded := by
  apply withTarget_bounded n _ s bounded
  by_cases holds : s.slots slot = some s.myself ∧ n ≠ s.myself ∧ env.countKeysInSlot slot ≠ 0
  · rw [if_pos holds]
    exact bounded
  · rw [if_neg holds]
    generalize decide (s.slots slot = some s.myself) = slotWasMine
    have marked : BoundedAt s.currentEpoch (if env.countKeysInSlot slot = 0 then
        { s with migratingSlotsTo := Function.update s.migratingSlotsTo slot none } else s) := by
      split_ifs <;> exact ⟨⟨bounded.nodes, bounded.election⟩, rfl⟩
    apply (detachable_boundedAt.rebindSlot marked n slot).bind
    intro s₁ bounded₁
    have followed : Returns (followNewOwner config slotWasMine n s₁) (BoundedAt s.currentEpoch) := by
      apply Outcome.node
      intro me _
      split_ifs
      · exact clusterSetMaster_bounded n s₁ bounded₁
      · exact bounded₁
    apply followed.bind
    intro s₂ bounded₂
    have closed : Returns (closeImport slot n s₂) ClusterState.Bounded := by
      unfold closeImport
      split_ifs
      · apply (clusterBumpConfigEpochWithoutConsensus_bounded s₂ bounded₂.1 (bounded₂.2 ▸ room)).bind
        intro s₃ bounded₃
        exact ⟨bounded₃.nodes, bounded₃.election⟩
      · exact bounded₂.1
    apply closed.bind
    intro s₃ bounded₃
    exact bounded₃

theorem onMaster_bounded {next : ClusterState Name → Checked (CommandResult Name)} (bounded : s.Bounded)
    (rest : Returns (next s) fun result => result.1.Bounded) :
    Returns (onMaster next s) fun result => result.1.Bounded := by
  apply Outcome.node
  intro me _
  split_ifs
  · exact bounded
  · exact rest

theorem updateSlotsCommand_bounded (slots : List Slot) (del : Bool) (s : ClusterState Name) (bounded : s.Bounded) :
    Returns (updateSlotsCommand slots del s) fun result => result.1.Bounded := by
  unfold updateSlotsCommand
  cases checkSlotAssignmentsOrReply del s slots fun _ => false with
  | error refusal => exact bounded
  | ok seen =>
    exact commandResult_bounded (detachable_boundedAt.updateSlots bounded.at seen del)

theorem setConfigEpoch_bounded (epoch : Int64) (s : ClusterState Name) (bounded : s.Bounded) :
    Returns (setConfigEpoch epoch s) fun result => result.1.Bounded := by
  apply Outcome.node
  intro me _
  by_cases negative : epoch < 0
  · rw [if_pos negative]
    exact bounded
  · rw [if_neg negative]
    by_cases others : s.nodes.entries.length > 1
    · rw [if_pos others]
      exact bounded
    · rw [if_neg others]
      by_cases already : me.configEpoch ≠ 0
      · rw [if_pos already]
        exact bounded
      · rw [if_neg already]
        change ClusterState.Bounded (if s.currentEpoch < epoch.toUInt64 then _ else _)
        split_ifs with ahead
        · exact ((bounded.raise (UInt64.le_of_lt ahead)).setNode s.myself (UInt64.le_refl _)).1
        · exact (bounded.at.setNode s.myself (UInt64.not_lt.mp ahead)).1

theorem failover_bounded (env : CommandEnv) (mode : FailoverMode) (s : ClusterState Name) (bounded : s.Bounded)
    (room : mode = .takeover → s.currentEpoch ≠ lastEpoch) :
    Returns (failover env mode s) fun result => result.1.Bounded := by
  apply Outcome.node
  intro me _
  split
  · exact bounded
  · exact bounded
  · apply Outcome.node
    intro master _
    by_cases down : mode = .agreed ∧ (master.fail ∨ !env.masterLinked)
    · rw [if_pos down]
      exact bounded
    · rw [if_neg down]
      have reset : ClusterState.Bounded { resetManualFailover s with mfEnd := env.mstime + 5000 } :=
        ⟨bounded.nodes, bounded.election⟩
      cases mode with
      | agreed => exact reset
      | force => exact ⟨reset.nodes, reset.election⟩
      | takeover =>
        apply (clusterBumpConfigEpochWithoutConsensus_bounded _ reset (room rfl)).bind
        intro s₁ bounded₁
        apply (clusterFailoverReplaceYourMaster_bounded s₁ bounded₁).bind
        intro s₂ bounded₂
        exact bounded₂

/-- The subcommands that can take a new epoch. -/
def ClusterCommand.takesEpoch : ClusterCommand Name → Bool
  | .setslotNode .. => true
  | .bumpepoch => true
  | .failover .takeover => true
  | _ => false

theorem clusterCommand_bounded (env : CommandEnv) (command : ClusterCommand Name) (s : ClusterState Name)
    (bounded : s.Bounded) (room : command.takesEpoch → s.currentEpoch ≠ lastEpoch) :
    Returns (clusterCommand config env command s) fun result => result.1.Bounded := by
  have marks (migrating importing : Slot → Option Name) : ClusterState.Bounded
      { s with migratingSlotsTo := migrating, importingSlotsFrom := importing } := ⟨bounded.nodes, bounded.election⟩
  cases command with
  | addslots slots => exact updateSlotsCommand_bounded slots false s bounded
  | delslots slots => exact updateSlotsCommand_bounded slots true s bounded
  | flushslots =>
    unfold clusterCommand
    split_ifs
    · exact bounded
    · exact commandResult_bounded (detachable_boundedAt.delNodeSlots bounded.at s.myself)
  | setslotMigrating slot n =>
    apply onMaster_bounded s bounded
    unfold setslotMigrating
    split_ifs
    · exact bounded
    · exact withTarget_bounded n _ s bounded (marks _ s.importingSlotsFrom)
  | setslotImporting slot n =>
    apply onMaster_bounded s bounded
    unfold setslotImporting
    split_ifs
    · exact bounded
    · exact withTarget_bounded n _ s bounded (marks s.migratingSlotsTo _)
  | setslotStable slot =>
    apply onMaster_bounded s bounded
    exact marks _ _
  | setslotNode slot n => exact onMaster_bounded s bounded (setslotNode_bounded config env slot n s bounded (room rfl))
  | bumpepoch =>
    apply (clusterBumpConfigEpochWithoutConsensus_bounded s bounded (room rfl)).bind
    intro s' bounded'
    exact bounded'
  | setConfigEpoch epoch => exact setConfigEpoch_bounded epoch s bounded
  | forget n =>
    apply Outcome.node
    intro me _
    split_ifs
    · exact bounded
    · exact bounded
    · exact bounded
    · exact bounded
    · exact commandResult_bounded (detachable_boundedAt.delNode bounded.at n)
  | replicate n =>
    apply Outcome.node
    intro me _
    cases s.nodes.lookup n with
    | none => exact bounded
    | some node =>
      dsimp only
      split_ifs
      · exact bounded
      · exact bounded
      · exact bounded
      · exact commandResult_bounded (clusterSetMaster_bounded n s bounded.at)
  | failover mode =>
    apply failover_bounded env mode s bounded
    intro takeover
    exact room (by rw [takeover]; rfl)
end Command

section Server
variable [LinearOrder Name]

/-- A step that can take a new epoch is not made at the last one. -/
def Event.Room (s : ClusterState Name) : Event Name → Prop
  | .packet _ _ hdr => hdr.data.isPing → epochAfter s hdr ≠ lastEpoch
  | .command _ subcommand => subcommand.takesEpoch → s.currentEpoch ≠ lastEpoch
  | .slaveFailover _ => s.currentEpoch ≠ lastEpoch
  | _ => True

/-- The packet of an event is bounded. -/
def Event.Carried : Event Name → Prop
  | .packet _ _ hdr => hdr.Bounded
  | _ => True

theorem step_bounded (event : Event Name) (bounded : s.Bounded) (carried : event.Carried) (room : event.Room s) :
    Returns (s.step config event) fun result => result.1.Bounded ∧ ∀ message ∈ result.2, message.Bounded := by
  have silent {s' : ClusterState Name} (holds : s'.Bounded) :
      s'.Bounded ∧ ∀ message ∈ ([] : List (ClusterMsg Name)), message.Bounded :=
    ⟨holds, fun message inside => by cases inside⟩
  cases event with
  | packet env link hdr =>
    apply (clusterProcessPacket_bounded config env link hdr s bounded carried room).bind
    rintro ⟨s', reply⟩ ⟨bounded', messages⟩
    exact ⟨bounded', fun message inside => messages message (Option.mem_toList.mp inside)⟩
  | command env command =>
    apply (clusterCommand_bounded config env command s bounded room).bind
    rintro ⟨s', refusal⟩ bounded'
    exact silent bounded'
  | slaveFailover env =>
    apply (clusterHandleSlaveFailover_bounded config env s bounded room).bind
    rintro result ⟨bounded', messages⟩
    exact ⟨bounded', fun message inside => messages message (Option.mem_toList.mp inside)⟩
  | handshake n role shardId =>
    apply silent
    unfold clusterAddNode
    split_ifs
    · exact bounded
    · exact (bounded.at.setNode n UInt64.zero_le).1
  | updateState => exact silent ⟨bounded.nodes, bounded.election⟩
  | manualFailoverReady => exact silent ⟨bounded.nodes, bounded.election⟩
  | manualFailoverTimeout => exact silent ⟨bounded.nodes, bounded.election⟩
end Server
end Redis.Cluster

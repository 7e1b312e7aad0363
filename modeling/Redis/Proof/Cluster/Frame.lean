import Redis.Construction.Cluster.Command
import Redis.Foundation.Loop

namespace Redis.Cluster
open Foundation
variable {Name : Type} [DecidableEq Name]

section Lookup
/-- A computation that returns meets its postcondition. -/
abbrev Returns {A : Type} (computation : Checked A) (post : A → Prop) : Prop :=
  Outcome computation (fun _ => True) post

variable {s : ClusterState Name} {n : Name} {B : Type} {post : B → Prop}

@[simp] theorem lookup_setNode (s : ClusterState Name) (n k : Name) (node : ClusterNode Name) :
    (s.setNode n node).nodes.lookup k = if k = n then some node else s.nodes.lookup k := by
  by_cases same : k = n
  · subst same
    rw [if_pos rfl]
    exact AList.lookup_insert s.nodes
  · rw [if_neg same]
    exact AList.lookup_insert_ne same

theorem Outcome.node {next : ClusterNode Name → Checked B}
    (rest : ∀ node, s.nodes.lookup n = some node → Returns (next node) post) : Returns (s.node n >>= next) post := by
  rw [ClusterState.node]
  cases found : s.nodes.lookup n with
  | none => trivial
  | some node => exact rest node found

theorem Outcome.require {site : AssertSite} {condition : Prop} [Decidable condition] {next : Unit → Checked B}
    (rest : condition → Returns (next ()) post) : Returns (require site condition >>= next) post := by
  by_cases holds : condition
  · rw [require_of holds]
    exact rest holds
  · rw [Redis.require, if_neg holds]
    trivial
end Lookup

section Stable
/-- A property that does not depend on the slots, nor on the replicas, the identifiers and the failures of nodes. -/
structure Stable (P : ClusterState Name → Prop) : Prop where
  node : ∀ {s : ClusterState Name} {n : Name} {old new : ClusterNode Name}, P s → s.nodes.lookup n = some old →
    (new.configEpoch, new.role, new.slaveof) = (old.configEpoch, old.role, old.slaveof) → P (s.setNode n new)
  tables : ∀ {s s' : ClusterState Name}, P s → s'.nodes = s.nodes → s'.myself = s.myself →
    s'.currentEpoch = s.currentEpoch → s'.failoverAuthEpoch = s.failoverAuthEpoch → P s'

/-- A stable property that nodes without a master keep when they get another role or are removed. -/
structure Detachable (P : ClusterState Name → Prop) : Prop extends Stable P where
  detach : ∀ {s : ClusterState Name} {n : Name} {old new : ClusterNode Name}, P s → s.nodes.lookup n = some old →
    new.configEpoch = old.configEpoch → new.slaveof = none → P (s.setNode n new)
  erase : ∀ {s : ClusterState Name} (n : Name), P s → P { s with nodes := s.nodes.erase n }

theorem Stable.and {P Q : ClusterState Name → Prop} (first : Stable P) (second : Stable Q) :
    Stable fun s => P s ∧ Q s :=
  ⟨fun both found same => ⟨first.node both.1 found same, second.node both.2 found same⟩,
    fun both nodes self epoch election =>
      ⟨first.tables both.1 nodes self epoch election, second.tables both.2 nodes self epoch election⟩⟩

theorem stable_self (me : Name) : Stable fun s : ClusterState Name => s.myself = me :=
  ⟨fun self _ _ => self, fun self _ same _ _ => same.trans self⟩

theorem forSlots_outcome {State : Type} {body : State → Slot → Checked State} {allowed : Fault → Prop}
    {invariant : State → Prop} (each : ∀ s j, invariant s → Outcome (body s j) allowed invariant) (s : State)
    (start : invariant s) : Outcome (forSlots body s) allowed invariant := by
  unfold forSlots
  generalize List.finRange clusterSlots = items
  exact foldlM_outcome items (fun s j _ holds => each s j holds) s start

variable {P : ClusterState Name → Prop} {s : ClusterState Name}

section Slots
variable (stable : Stable P) (holds : P s)
include stable holds
theorem Stable.addSlot (n : Name) (j : Slot) : Returns (clusterAddSlot n j s) fun result => P result.1 := by
  unfold clusterAddSlot
  split_ifs
  · exact holds
  · apply Outcome.node
    intro node found
    refine stable.tables (stable.node holds found ?_) rfl rfl rfl rfl
    unfold clusterNodeSetSlotBit
    dsimp only
    split <;> rfl

theorem Stable.delSlot (j : Slot) : Returns (clusterDelSlot j s) fun result => P result.1 := by
  unfold clusterDelSlot
  cases s.slots j with
  | none => exact holds
  | some n =>
    apply Outcome.node
    intro node found
    apply Outcome.require
    intro _
    refine stable.tables (stable.node holds found ?_) rfl rfl rfl rfl
    unfold clusterNodeClearSlotBit
    dsimp only
    split <;> rfl

theorem Stable.rebindSlot (n : Name) (j : Slot) : Returns (rebindSlot n j s) P := by
  apply (stable.delSlot holds j).bind
  intro deleted kept
  apply (stable.addSlot kept n j).bind
  intro added kept
  exact kept

theorem Stable.moveNodeSlots (source target : Name) : Returns (clusterMoveNodeSlots source target s) P := by
  refine forSlots_outcome (fun s j holds => ?_) s holds
  apply Outcome.node
  intro node _
  split_ifs
  · exact stable.rebindSlot holds target j
  · exact holds

theorem Stable.delNodeSlots (n : Name) : Returns (clusterDelNodeSlots n s) P := by
  refine forSlots_outcome (fun s j holds => ?_) s holds
  apply Outcome.node
  intro node _
  split_ifs
  · exact (stable.delSlot holds j).bind fun _ kept => kept
  · exact holds

theorem Stable.updateSlots (slots : Bitmap) (del : Bool) : Returns (clusterUpdateSlots slots del s) P := by
  refine forSlots_outcome (fun s j holds => ?_) s holds
  by_cases wanted : slots j = true
  · rw [if_pos wanted]
    set closed := { s with importingSlotsFrom := Function.update s.importingSlotsFrom j none }
    have kept : P closed := stable.tables holds rfl rfl rfl rfl
    have update : Returns (if del = true then clusterDelSlot j closed else clusterAddSlot closed.myself j closed)
        fun result => P result.1 := by
      split_ifs
      · exact stable.delSlot kept j
      · exact stable.addSlot kept closed.myself j
    apply update.bind
    intro result kept
    apply Outcome.require
    intro _
    exact kept
  · rw [if_neg wanted]
    exact holds

omit holds in
theorem Stable.updateSlot {scan : SlotScan Name} (holds : P scan.state) (sender : Name) (senderConfigEpoch : UInt64)
    (slots : Bitmap) (curmaster : Option Name) (j : Slot) :
    Returns (updateSlot sender senderConfigEpoch slots curmaster scan j) fun scan' => P scan'.state := by
  have marked (mark : Bool) : P { scan.state with
      ownerNotClaimingSlot := Function.update scan.state.ownerNotClaimingSlot j mark } := stable.tables holds rfl rfl rfl rfl
  unfold Cluster.updateSlot
  dsimp only
  split
  · split
    · exact marked false
    split
    · exact holds
    · cases rebinds scan.state senderConfigEpoch j with
      | error fault => trivial
      | ok taken =>
        cases taken with
        | false => exact holds
        | true => exact (stable.rebindSlot holds sender j).bind fun _ kept => kept
  · split
    · exact marked true
    · exact holds
end Slots

section Roles
variable (stable : Stable P) (holds : P s)
include stable holds
theorem Stable.removeSlave (master slave : Name) : Returns (clusterNodeRemoveSlave master slave s) P := by
  apply Outcome.node
  intro node found
  exact stable.node holds found rfl

theorem Stable.addSlave (master slave : Name) : Returns (clusterNodeAddSlave master slave s) P := by
  apply Outcome.node
  intro node found
  split_ifs
  · exact holds
  · exact stable.node holds found rfl

theorem Stable.leaveMaster (n : Name) (slaveof : Option Name) : Returns (leaveMaster n slaveof s) P := by
  cases slaveof with
  | none => exact holds
  | some master => exact stable.removeSlave holds master n

theorem Stable.assignShardId (shardId n : Name) : Returns (assignShardIdToNode shardId s n) P := by
  apply Outcome.node
  intro node found
  exact stable.node holds found rfl

theorem Stable.updateShardId (n shardId : Name) : Returns (updateShardId n shardId s) P := by
  apply Outcome.node
  intro node _
  split_ifs
  · exact holds
  · cases node.slaveof with
    | none =>
      apply (stable.assignShardId holds shardId n).bind
      intro first kept
      exact foldlM_outcome _ (fun middle slave _ holds => stable.assignShardId holds shardId slave) first kept
    | some m =>
      apply Outcome.node
      intro master _
      split_ifs
      · exact stable.assignShardId holds shardId n
      · exact holds

theorem Stable.clearNodeFailure (env : PacketEnv Name) (n : Name) : Returns (clearNodeFailureIfNeeded env n s) P := by
  apply Outcome.node
  intro node found
  split_ifs
  · exact stable.node holds found rfl
  · exact holds
end Roles

section Masters
variable {Q : ClusterState Name → Prop} (before : Stable P) (after : Stable Q)
include before after
theorem Stable.changeMaster {sender m : Name} (holds : P s) (weaken : ∀ s, P s → Q s)
    (link : ∀ s node, P s → s.nodes.lookup sender = some node → Q (s.setNode sender { node with slaveof := some m })) :
    Returns (changeMaster sender m s) Q := by
  apply Outcome.node
  intro node _
  split_ifs
  · exact weaken s holds
  · apply (before.leaveMaster holds sender node.slaveof).bind
    intro s₁ kept₁
    apply (before.addSlave kept₁ m sender).bind
    intro s₂ kept₂
    apply Outcome.node
    intro node found
    apply Outcome.node
    intro master _
    exact after.updateShardId (link s₂ node kept₂ found) sender master.shardId

theorem Stable.setMaster {n : Name} (demote : ∀ me, s.nodes.lookup s.myself = some me → me.role = .master →
      P (s.setNode s.myself { me with role := .slave }))
    (slave : ∀ me, s.nodes.lookup s.myself = some me → me.role ≠ .master → P s)
    (link : ∀ s me, P s → s.nodes.lookup s.myself = some me → Q (s.setNode s.myself { me with slaveof := some n })) :
    Returns (clusterSetMaster n s) Q := by
  apply Outcome.require
  intro _
  apply Outcome.node
  intro me found
  apply Outcome.require
  intro _
  have left : Returns (if me.role = .master then
      (return clusterCloseAllSlots (s.setNode s.myself { me with role := .slave }) : Checked (ClusterState Name))
      else Cluster.leaveMaster s.myself me.slaveof s) P := by
    split_ifs with master
    · exact before.tables (demote me found master) rfl rfl rfl rfl
    · exact before.leaveMaster (slave me found master) s.myself me.slaveof
  apply left.bind
  intro s₁ kept₁
  apply Outcome.node
  intro me found
  apply Outcome.node
  intro master _
  apply (after.updateShardId (link s₁ me kept₁ found) _ _).bind
  intro s₂ kept₂
  apply (after.addSlave kept₂ n _).bind
  intro s₃ kept₃
  exact after.tables kept₃ rfl rfl rfl rfl

omit after in
/-- The loop changes only slots. Then this server may follow the sender or the master of its master. -/
theorem Stable.slotsConfig (config : ClusterConfig) {sender : Name} (senderConfigEpoch : UInt64) (slots : Bitmap)
    (start : Q s) (holds : P s) (weaken : ∀ s, P s → Q s)
    (follow : sender ≠ s.myself → ∀ s, P s → Returns (clusterSetMaster sender s) Q)
    (above : ∀ s n, P s → grandmaster s = .ok (some n) → Returns (clusterSetMaster n s) Q) :
    Returns (clusterUpdateSlotsConfigWith config sender senderConfigEpoch slots s) Q := by
  apply Outcome.node
  intro me _
  generalize (if me.role = .master then some s.myself else me.slaveof) = curmaster
  by_cases mine : sender = s.myself
  · rw [if_pos mine]
    exact start
  · rw [if_neg mine]
    have loop : Returns (forSlots (Cluster.updateSlot sender senderConfigEpoch slots curmaster) ⟨s, false, 0, 0⟩)
        fun scan => P scan.state :=
      forSlots_outcome (fun scan j kept => before.updateSlot kept sender senderConfigEpoch slots curmaster j) _ holds
    apply loop.bind
    intro scan kept
    split_ifs
    · exact weaken _ kept
    · cases lostAllSlots config curmaster scan with
      | error fault => trivial
      | ok lost =>
        rw [ok_bind]
        split_ifs
        · exact follow mine _ kept
        · cases up : grandmaster scan.state with
          | error fault => trivial
          | ok top =>
            cases top with
            | none => exact weaken _ kept
            | some n => exact above _ n kept up
end Masters

section Detached
variable (stable : Detachable P) (holds : P s)
include stable holds
theorem Detachable.setNodeAsMaster (n : Name) : Returns (clusterSetNodeAsMaster n s) P := by
  apply Outcome.node
  intro node _
  split_ifs
  · exact holds
  · apply (stable.leaveMaster holds n node.slaveof).bind
    intro left kept
    apply Outcome.node
    intro node found
    exact stable.detach kept found rfl rfl

theorem Detachable.freeNode (n : Name) : Returns (freeClusterNode n s) P := by
  apply Outcome.node
  intro node _
  have forgot : Returns (node.slaves.foldlM forgetMaster s) P := by
    refine foldlM_outcome _ (fun middle slave _ holds => ?_) s holds
    apply Outcome.node
    intro node found
    exact stable.detach holds found rfl rfl
  apply forgot.bind
  intro s₁ kept₁
  have left : Returns (if node.role = .slave then leaveMaster n node.slaveof s₁ else return s₁) P := by
    split_ifs
    · exact stable.leaveMaster kept₁ n node.slaveof
    · exact kept₁
  apply left.bind
  intro s₂ kept₂
  exact stable.erase n kept₂

theorem Detachable.delNode (n : Name) : Returns (clusterDelNode n s) P := by
  refine (forSlots_outcome (fun s j holds => ?_) s holds).bind fun s' kept => stable.freeNode kept n
  dsimp only
  set cleared := { s with
    importingSlotsFrom := Function.update s.importingSlotsFrom j (clearPointer n (s.importingSlotsFrom j))
    migratingSlotsTo := Function.update s.migratingSlotsTo j (clearPointer n (s.migratingSlotsTo j)) }
  have kept : P cleared := stable.tables holds rfl rfl rfl rfl
  split_ifs
  · exact (stable.delSlot kept j).bind fun _ kept => kept
  · exact kept

theorem Detachable.pingExtensions (sender : Name) (shardId : Option Name) (forgotten : List Name) :
    Returns (clusterProcessPingExtensions sender shardId forgotten s) P := by
  have removed : Returns (forgotten.foldlM processForgotten s) P := by
    refine foldlM_outcome _ (fun middle n _ holds => ?_) s holds
    apply Outcome.node
    intro me _
    split_ifs
    · exact stable.delNode holds n
    · exact holds
  apply removed.bind
  intro s₁ kept
  cases announcedShardId sender shardId s₁ with
  | error fault => trivial
  | ok id => exact stable.updateShardId kept sender id
end Detached
end Stable
end Redis.Cluster

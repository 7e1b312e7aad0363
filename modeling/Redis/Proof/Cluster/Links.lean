import Redis.Construction.Cluster.Network
import Redis.Foundation.Links
import Redis.Proof.Cluster.Frame

namespace Redis.Cluster
open Foundation
variable {Name : Type}
variable {a b : Name} {role : Role} {kind : PingKind} {gossip : List (GossipEntry Name)} {shardId : Option Name}
  {forgotten : List Name}

section Links
variable [DecidableEq Name]

/-- A known node is recorded as a replica of another one. -/
def ClusterState.Follows (s : ClusterState Name) (n m : Name) : Prop :=
  ∃ node, s.nodes.lookup n = some node ∧ node.slaveof = some m

/-- The second node is reached from the first one by following links. -/
def ClusterState.Reaches (s : ClusterState Name) : Name → Name → Prop := Relation.ReflTransGen s.Follows

/-- All links end, and masters have none. -/
structure ClusterState.WellLinked (s : ClusterState Name) : Prop where
  ends : WellFounded fun m n => s.Follows n m
  masters : ∀ n node, s.nodes.lookup n = some node → node.role = .master → node.slaveof = none

variable {s s' : ClusterState Name} {n m : Name} {old new : ClusterNode Name}

theorem follows_setNode : (s.setNode n new).Follows a b ↔ if a = n then new.slaveof = some b else s.Follows a b := by
  unfold ClusterState.Follows
  rw [lookup_setNode]
  split_ifs <;> simp

theorem ClusterState.WellLinked.setNode (linked : s.WellLinked) (role : new.role = .master → new.slaveof = none)
    (free : ∀ m, new.slaveof = some m → ¬ s.Reaches m n) : (s.setNode n new).WellLinked := by
  constructor
  · apply wellFounded_relink linked.ends (n := n)
    · intro a b other step
      rwa [follows_setNode, if_neg other] at step
    · intro b step
      rw [follows_setNode, if_pos rfl] at step
      exact free b step
  · intro k node found
    rw [lookup_setNode] at found
    split_ifs at found
    · cases found
      exact role
    · exact linked.masters k node found

theorem ClusterState.WellLinked.keep (linked : s.WellLinked) (found : s.nodes.lookup n = some old)
    (role : new.role = old.role) (link : new.slaveof = old.slaveof) : (s.setNode n new).WellLinked := by
  apply linked.setNode
  · rw [role, link]
    exact linked.masters n old found
  · intro m is
    exact not_reaches_of_follows linked.ends ⟨old, found, link ▸ is⟩

theorem ClusterState.WellLinked.within (linked : s.WellLinked)
    (known : ∀ n node, s'.nodes.lookup n = some node → s.nodes.lookup n = some node) : s'.WellLinked := by
  refine ⟨Subrelation.wf ?_ linked.ends, fun n node found => linked.masters n node (known n node found)⟩
  rintro m n ⟨node, found, link⟩
  exact ⟨node, known n node found, link⟩

theorem detachable_wellLinked : Detachable (ClusterState.WellLinked : ClusterState Name → Prop) := by
  refine ⟨⟨?_, ?_⟩, ?_, ?_⟩
  · intro s n old new linked found same
    simp only [Prod.mk.injEq] at same
    exact linked.keep found same.2.1 same.2.2
  · intro s s' linked same _ _ _
    exact linked.within fun n node found => same ▸ found
  · intro s n old new linked _ _ none
    exact linked.setNode (fun _ => none) fun m is => by rw [none] at is; cases is
  · intro s n linked
    refine linked.within fun k node found => ?_
    by_cases same : k = n
    · subst same
      cases (AList.lookup_erase k s.nodes).symm.trans found
    · exact (AList.lookup_erase_ne same).symm.trans found

theorem reaches_setNode (reaches : (s.setNode n new).Reaches a b)
    (link : ∀ m, new.slaveof = some m → s.Follows n m) : s.Reaches a b := by
  refine Relation.ReflTransGen.mono (fun a b step => ?_) _ _ reaches
  rw [follows_setNode] at step
  split_ifs at step with same
  · exact same ▸ link b step
  · exact step

theorem stable_apart : Stable fun s : ClusterState Name => ¬ s.Reaches m n := by
  constructor
  · intro s k old new apart found same reaches
    simp only [Prod.mk.injEq] at same
    exact apart (reaches_setNode reaches fun m is => ⟨old, found, same.2.2 ▸ is⟩)
  · intro s s' apart same _ _ _
    unfold ClusterState.Reaches ClusterState.Follows
    rw [same]
    exact apart

theorem role_slave (other : role ≠ .master) : role = .slave := by
  cases role with
  | master => exact absurd rfl other
  | slave => rfl

/-- The node has a role, if it is known. -/
def ClusterState.HasRole (s : ClusterState Name) (n : Name) (role : Role) : Prop :=
  ∀ node, s.nodes.lookup n = some node → node.role = role

theorem hasRole_setNode (is : new.role = role) : (s.setNode n new).HasRole n role := by
  intro node found
  rw [lookup_setNode, if_pos rfl] at found
  cases found
  exact is

theorem stable_hasRole (role : Role) : Stable fun s : ClusterState Name => s.HasRole n role := by
  constructor
  · intro s k old new has found same
    simp only [Prod.mk.injEq] at same
    by_cases this : n = k
    · subst this
      exact hasRole_setNode (same.2.1.trans (has old found))
    · intro node known
      rw [lookup_setNode, if_neg this] at known
      exact has node known
  · intro s s' has same _ _ _
    unfold ClusterState.HasRole
    rw [same]
    exact has

/-- The first node is a replica that can follow the second one. -/
def Ready (n m : Name) (s : ClusterState Name) : Prop := s.WellLinked ∧ s.HasRole n .slave ∧ ¬ s.Reaches m n

theorem stable_ready : Stable (Ready n m : ClusterState Name → Prop) :=
  detachable_wellLinked.and ((stable_hasRole .slave).and stable_apart)

theorem Ready.link (ready : Ready n m s) (found : s.nodes.lookup n = some old) :
    (s.setNode n { old with slaveof := some m }).WellLinked := by
  obtain ⟨linked, role, free⟩ := ready
  apply linked.setNode
  · intro master
    cases (role old found).symm.trans master
  · intro m' is
    cases is
    exact free

theorem ClusterState.WellLinked.demote (linked : s.WellLinked) (found : s.nodes.lookup n = some old) :
    (s.setNode n { old with role := .slave }).WellLinked := by
  apply linked.setNode
  · exact fun master => by cases master
  · exact fun m is => not_reaches_of_follows linked.ends ⟨old, found, is⟩

theorem ClusterState.WellLinked.ready (linked : s.WellLinked) (found : s.nodes.lookup n = some old)
    (free : ¬ s.Reaches m n) : Ready n m (s.setNode n { old with role := .slave }) := by
  refine ⟨linked.demote found, hasRole_setNode rfl, fun reaches => free ?_⟩
  exact reaches_setNode reaches fun m is => ⟨old, found, is⟩

/-- This server follows a node that does not follow it. -/
theorem ClusterState.WellLinked.setMaster (linked : s.WellLinked) (free : ¬ s.Reaches n s.myself) :
    Returns (clusterSetMaster n s) ClusterState.WellLinked := by
  apply ((stable_self s.myself).and stable_ready).setMaster detachable_wellLinked.toStable
  · exact fun me found _ => ⟨rfl, linked.ready found free⟩
  · intro me found other
    refine ⟨rfl, linked, fun node known => ?_, free⟩
    cases found.symm.trans known
    exact role_slave other
  · rintro s' me ⟨same, ready⟩ found
    rw [same] at found ⊢
    exact ready.link found

/-- The master of the master of this server does not follow it. -/
theorem ClusterState.WellLinked.grandmaster (linked : s.WellLinked) (up : grandmaster s = .ok (some n)) :
    ¬ s.Reaches n s.myself := by
  have links : Returns (Cluster.grandmaster s) fun top => ∀ n, top = some n → ∃ m, s.Follows s.myself m ∧ s.Follows m n := by
    apply Outcome.node
    intro me found
    cases link : me.slaveof with
    | none => exact fun n is => by cases is
    | some m =>
      apply Outcome.node
      intro master known n is
      split_ifs at is
      exact ⟨m, ⟨me, found, link⟩, master, known, is⟩
  obtain ⟨m, first, second⟩ := links.of_ok up n rfl
  intro reaches
  exact not_reaches_of_follows linked.ends first (reaches.head second)

theorem ClusterState.WellLinked.slotsConfig (linked : s.WellLinked) (config : ClusterConfig) {sender : Name}
    (senderConfigEpoch : UInt64) (slots : Bitmap) (master : s.HasRole sender .master) :
    Returns (clusterUpdateSlotsConfigWith config sender senderConfigEpoch slots s) ClusterState.WellLinked := by
  have stable := (detachable_wellLinked.and (stable_self s.myself)).and (@stable_hasRole _ _ sender .master)
  apply stable.slotsConfig config _ _ linked ⟨⟨linked, rfl⟩, master⟩
  · exact fun s all => all.1.1
  · rintro other s' ⟨⟨linked, self⟩, master⟩
    apply linked.setMaster
    intro reaches
    rcases reaches.cases_head with same | ⟨m, ⟨node, found, link⟩, _⟩
    · exact other (same.trans self)
    · rw [linked.masters sender node found (master node found)] at link
      cases link
  · exact fun s n all up => all.1.1.setMaster (all.1.1.grandmaster up)
end Links

section Claims
variable [DecidableEq Name] {s : ClusterState Name} {sender m : Name}

/-- A failover in the shard of the sender, which was its master: the claimed master loses its own link. -/
def Replaces (s : ClusterState Name) (sender m : Name) (senderConfigEpoch : UInt64) : Prop :=
  ∃ node master, s.nodes.lookup sender = some node ∧ s.nodes.lookup m = some master ∧ node.role = .master ∧
    master.shardId = node.shardId ∧ node.configEpoch ≤ senderConfigEpoch

/-- A replica claims another node as its master that does not follow the replica, or that replaces it. -/
def ClaimEnds (s : ClusterState Name) (sender : Name) (hdr : ClusterMsg Name) : Prop :=
  ∀ m, hdr.slaveof = some m → m ≠ sender ∧ (Replaces s sender m hdr.configEpoch ∨ ¬ s.Reaches m sender)

theorem moveToNewMaster_linked (linked : s.WellLinked) (senderConfigEpoch : UInt64) (other : m ≠ sender) :
    Returns (moveToNewMaster sender m senderConfigEpoch s) fun s' => s'.WellLinked ∧ ¬ s'.Reaches m sender := by
  apply (detachable_wellLinked.moveNodeSlots linked sender m).bind
  intro s₁ linked₁
  have promoted : Returns (clusterSetNodeAsMaster m s₁) fun s' => s'.WellLinked ∧ ∀ k, ¬ s'.Follows m k := by
    apply Outcome.node
    intro node found
    split_ifs with master
    · refine ⟨linked₁, fun k ⟨node', found', link⟩ => ?_⟩
      cases found.symm.trans found'
      rw [linked₁.masters m node found master] at link
      cases link
    · apply (detachable_wellLinked.leaveMaster linked₁ m node.slaveof).bind
      intro left kept
      apply Outcome.node
      intro node found
      refine ⟨detachable_wellLinked.detach kept found rfl rfl, fun k step => ?_⟩
      rw [follows_setNode, if_pos rfl] at step
      cases step
  apply promoted.bind
  rintro s₂ ⟨linked₂, top⟩
  apply Outcome.node
  intro node found
  refine ⟨linked₂.keep found rfl rfl, fun reaches => ?_⟩
  have before := reaches_setNode reaches fun k is => ⟨node, found, is⟩
  rcases before.cases_head with same | ⟨k, step, _⟩
  · exact other same
  · exact top k step

/-- Afterwards the sender can follow the node that it claims as its master. -/
theorem demoteSender_linked (linked : s.WellLinked) (master : Option Name) (senderConfigEpoch : UInt64)
    (claim : ∀ m, master = some m → m ≠ sender ∧ (Replaces s sender m senderConfigEpoch ∨ ¬ s.Reaches m sender)) :
    Returns (demoteSender sender master senderConfigEpoch s) fun s' => s'.WellLinked ∧
      ∀ m, master = some m → Ready sender m s' := by
  have shard : Returns (sameShardMaster sender master s) fun top =>
      (top = none ∧ ∀ m, master = some m → ¬ Replaces s sender m senderConfigEpoch) ∨ ∃ m, top = some m ∧ master = some m := by
    apply Outcome.node
    intro node found
    cases master with
    | none => exact Or.inl ⟨rfl, fun m is => by cases is⟩
    | some m =>
      apply Outcome.node
      intro other known
      split_ifs with same
      · exact Or.inr ⟨m, rfl, rfl⟩
      · refine Or.inl ⟨rfl, ?_⟩
        rintro m ⟨⟩ ⟨node', other', found', known', _, same', _⟩
        cases found.symm.trans found'
        cases known.symm.trans known'
        exact same same'
  apply Outcome.node
  intro node found
  apply shard.bind
  intro top shards
  apply Outcome.bind (show Returns _ fun s' : ClusterState Name => s'.WellLinked ∧
    ∀ m, master = some m → ¬ s'.Reaches m sender from ?_)
  · rintro s₁ ⟨linked₁, free⟩
    apply Outcome.node
    intro node₁ found₁
    exact ⟨linked₁.demote found₁, fun m is => linked₁.ready found₁ (free m is)⟩
  · rcases shards with ⟨rfl, outside⟩ | ⟨m, rfl, rfl⟩
    · have free : ∀ m, master = some m → ¬ s.Reaches m sender := fun m is =>
        (claim m is).2.resolve_left (outside m is)
      cases master with
      | none => exact (detachable_wellLinked.delNodeSlots linked sender).mono fun s' kept => ⟨kept, fun m is => by cases is⟩
      | some m =>
        apply ((detachable_wellLinked.and stable_apart).delNodeSlots ⟨linked, free m rfl⟩ sender).mono
        rintro s' ⟨kept, apart⟩
        exact ⟨kept, fun m is => by cases is; exact apart⟩
    · dsimp only
      split_ifs with stale
      · refine ⟨linked, fun m is => (claim m is).2.resolve_left ?_⟩
        rintro ⟨node', _, found', _, _, _, fresh⟩
        cases found.symm.trans found'
        exact UInt64.not_lt.mpr fresh stale
      · apply (moveToNewMaster_linked linked senderConfigEpoch (claim m rfl).1).mono
        rintro s' ⟨kept, apart⟩
        exact ⟨kept, fun m is => by cases is; exact apart⟩

theorem checkRoleSwitch_linked {hdr : ClusterMsg Name} (linked : s.WellLinked) (claim : ClaimEnds s sender hdr) :
    Returns (checkRoleSwitch sender hdr s) ClusterState.WellLinked := by
  unfold checkRoleSwitch
  cases claims : hdr.slaveof with
  | none => exact detachable_wellLinked.setNodeAsMaster linked sender
  | some slaveof =>
    dsimp only
    obtain ⟨master, same, known⟩ : ∃ master, (if (s.nodes.lookup slaveof).isSome then some slaveof else none) = master ∧
        ∀ m, master = some m → slaveof = m := by
      refine ⟨_, rfl, fun m is => ?_⟩
      split_ifs at is
      exact Option.some.inj is
    rw [same]
    have claimed : ∀ m, master = some m → m ≠ sender ∧ (Replaces s sender m hdr.configEpoch ∨ ¬ s.Reaches m sender) :=
      fun m is => claim m (claims.trans (congrArg some (known m is)))
    apply Outcome.node
    intro node found
    have demoted : Returns (if node.role = .master then demoteSender sender master hdr.configEpoch s else return s)
        fun s' => s'.WellLinked ∧ ∀ m, master = some m → Ready sender m s' := by
      split_ifs with isMaster
      · exact demoteSender_linked linked master hdr.configEpoch claimed
      · refine ⟨linked, fun m is => ⟨linked, fun node' found' => ?_, (claimed m is).2.resolve_left ?_⟩⟩
        · cases found.symm.trans found'
          exact role_slave isMaster
        · rintro ⟨node', _, found', _, role, _⟩
          cases found.symm.trans found'
          exact isMaster role
    apply demoted.bind
    rintro s' ⟨linked', ready⟩
    cases master with
    | none => exact linked'
    | some m =>
      exact stable_ready.changeMaster detachable_wellLinked.toStable (ready m rfl) (fun _ ready => ready.1)
        fun _ _ ready found => ready.link found
end Claims

section Packets
variable [LinearOrder Name] {s s' : ClusterState Name} {sender : Name} {hdr : ClusterMsg Name} (config : ClusterConfig)
  (env : PacketEnv Name)

/-- The sender keeps what a claim is about, but for an epoch that its packet has. -/
theorem ClaimEnds.setNode (claim : ClaimEnds s sender hdr) {old new : ClusterNode Name}
    (found : s.nodes.lookup sender = some old) (role : new.role = old.role) (shard : new.shardId = old.shardId)
    (link : new.slaveof = old.slaveof) (epoch : old.configEpoch ≤ hdr.configEpoch → new.configEpoch ≤ hdr.configEpoch) :
    ClaimEnds (s.setNode sender new) sender hdr := by
  intro m is
  obtain ⟨other, ends⟩ := claim m is
  refine ⟨other, ends.imp ?_ fun apart reaches => apart (reaches_setNode reaches fun k is => ⟨old, found, link ▸ is⟩)⟩
  rintro ⟨node, master, found', known, isMaster, same, fresh⟩
  cases found.symm.trans found'
  refine ⟨new, master, ?_, ?_, role.trans isMaster, same.trans shard.symm, epoch fresh⟩
  · rw [lookup_setNode, if_pos rfl]
  · rw [lookup_setNode, if_neg other, known]

theorem updateEpochs_linked (linked : s.WellLinked) (claim : ClaimEnds s sender hdr) :
    Returns (updateEpochs sender hdr s) fun s' => s'.WellLinked ∧ ClaimEnds s' sender hdr := by
  apply Outcome.node
  intro node found
  set raised := if hdr.currentEpoch > s.currentEpoch then { s with currentEpoch := hdr.currentEpoch } else s
  have same : raised.nodes = s.nodes := by
    unfold raised
    split_ifs <;> rfl
  have linked' : raised.WellLinked := linked.within fun _ _ known => same ▸ known
  have claim' : ClaimEnds raised sender hdr := by
    unfold ClaimEnds Replaces ClusterState.Reaches ClusterState.Follows
    rw [same]
    exact claim
  rw [← same] at found
  split_ifs
  · exact ⟨linked'.keep found rfl rfl, claim'.setNode found rfl rfl rfl fun _ => UInt64.le_refl _⟩
  · exact ⟨linked', claim'⟩

theorem processGossip_linked (linked : s.WellLinked) (g : GossipEntry Name) :
    Returns (processGossip env sender s g) ClusterState.WellLinked := by
  apply Outcome.node
  intro reporter _
  cases known : s.nodes.lookup g.nodename with
  | some node =>
    dsimp only
    split_ifs
    · exact linked.keep known rfl rfl
    · exact linked
  | none =>
    dsimp only
    split_ifs
    · exact linked
    · exact linked.setNode (fun _ => rfl) fun m is => by cases is

theorem collision_linked (linked : s.WellLinked) :
    Returns (clusterHandleConfigEpochCollision sender s) ClusterState.WellLinked := by
  apply Outcome.node
  intro node _
  apply Outcome.node
  intro me _
  split_ifs
  · exact linked
  · exact linked
  · apply Outcome.node
    intro me found
    have raised : ClusterState.WellLinked { s with currentEpoch := s.currentEpoch + 1 } := linked.within fun _ _ known => known
    exact raised.keep found rfl rfl

theorem processPing_linked (linked : s.WellLinked) (claim : ClaimEnds s sender hdr) (gossip : List (GossipEntry Name))
    (shardId : Option Name) (forgotten : List Name) :
    Returns (processPing config env sender gossip shardId forgotten hdr s) fun result => result.1.WellLinked := by
  apply (checkRoleSwitch_linked linked claim).bind
  intro s₁ linked₁
  cases dirtySlots sender hdr s₁ with
  | error fault => trivial
  | ok dirty =>
    apply Outcome.node
    intro node found
    have slots : Returns (if node.role = .master ∧ dirty = true then
        clusterUpdateSlotsConfigWith config sender hdr.configEpoch hdr.myslots s₁ else return s₁)
        ClusterState.WellLinked := by
      split_ifs with master
      · apply linked₁.slotsConfig config _ _
        intro node' found'
        cases found.symm.trans found'
        exact master.1
      · exact linked₁
    apply slots.bind
    intro s₂ linked₂
    apply (outcome_any _).bind
    intro update _
    apply Outcome.node
    intro node _
    apply Outcome.node
    intro me _
    have collision : Returns (if me.role = .master ∧ node.role = .master ∧ hdr.configEpoch = me.configEpoch then
        clusterHandleConfigEpochCollision sender s₂ else return s₂) ClusterState.WellLinked := by
      split_ifs
      · exact collision_linked linked₂
      · exact linked₂
    apply collision.bind
    intro s₃ linked₃
    have gossiped : Returns (clusterProcessGossipSection env sender gossip s₃) ClusterState.WellLinked :=
      foldlM_outcome gossip (fun _ g _ linked => processGossip_linked env linked g) s₃ linked₃
    apply gossiped.bind
    intro s₄ linked₄
    exact (detachable_wellLinked.pingExtensions linked₄ sender shardId forgotten).bind fun _ linked₅ => linked₅

theorem clusterProcessPacket_inbound {link : ClusterLink Name}
    (known : getNodeFromLinkAndMsg link hdr s = some sender)
    (ping : hdr.data = .ping kind gossip shardId forgotten) (inbound : link.inbound = true) :
    clusterProcessPacket config env link hdr s =
      updateEpochs sender hdr s >>= processPing config env sender gossip shardId forgotten hdr := by
  rw [clusterProcessPacket, known]
  simp [ping, inbound]

theorem clusterProcessPacket_linked (link : ClusterLink Name) (linked : s.WellLinked)
    (known : getNodeFromLinkAndMsg link hdr s = some sender) (claim : ClaimEnds s sender hdr)
    (ping : hdr.data = .ping kind gossip shardId forgotten) :
    Returns (clusterProcessPacket config env link hdr s) fun result => result.1.WellLinked := by
  unfold clusterProcessPacket
  rw [known]
  apply (updateEpochs_linked linked claim).bind
  rintro s₁ ⟨linked₁, claim₁⟩
  rw [ping]
  dsimp only
  split
  · exact linked₁
  apply Outcome.bind (show Returns _ fun s' => s'.WellLinked ∧ ClaimEnds s' sender hdr from ?_)
  · rintro s₂ ⟨linked₂, claim₂⟩
    exact processPing_linked config env linked₂ claim₂ gossip shardId forgotten
  · split_ifs
    · apply Outcome.node
      intro node found
      split_ifs
      · exact ⟨linked₁.keep found rfl rfl, claim₁.setNode found rfl rfl rfl id⟩
      · exact ⟨linked₁, claim₁⟩
    · exact ⟨linked₁, claim₁⟩

/-- The states after any sequence of pings, pongs and meets of known senders that meet a condition. -/
inductive PingRun (meets : ClusterState Name → Name → ClusterMsg Name → Prop) (s : ClusterState Name) :
    ClusterState Name → Prop
  | start : PingRun meets s s
  | packet {s' : ClusterState Name} {sender : Name} {result : ClusterState Name × Option (ClusterMsg Name)}
      {kind : PingKind} {gossip : List (GossipEntry Name)} {shardId : Option Name} {forgotten : List Name}
      (env : PacketEnv Name) (link : ClusterLink Name) (hdr : ClusterMsg Name) :
      PingRun meets s s' → hdr.data = .ping kind gossip shardId forgotten →
      getNodeFromLinkAndMsg link hdr s' = some sender → meets s' sender hdr →
      clusterProcessPacket config env link hdr s' = .ok result → PingRun meets s result.1

theorem clusterNodeGetMaster_ends (ends : WellFounded fun m n => s.Follows n m) (n : Name) :
    ∃ steps, ∀ fuel, steps ≤ fuel → clusterNodeGetMaster s fuel n ≠ .error .outOfFuel := by
  induction n using ends.induction with
  | _ n ih =>
    cases found : s.nodes.lookup n with
    | none =>
      refine ⟨1, fun fuel enough => ?_⟩
      obtain ⟨fuel, rfl⟩ := Nat.exists_eq_add_of_le' enough
      rw [clusterNodeGetMaster, ClusterState.node, found]
      exact fun same => by cases same
    | some node =>
      cases link : node.slaveof with
      | none =>
        refine ⟨1, fun fuel enough => ?_⟩
        obtain ⟨fuel, rfl⟩ := Nat.exists_eq_add_of_le' enough
        rw [clusterNodeGetMaster, ClusterState.node, found, ok_bind, link]
        exact fun same => by cases same
      | some m =>
        obtain ⟨steps, ended⟩ := ih m ⟨node, found, link⟩
        refine ⟨steps + 1, fun fuel enough => ?_⟩
        obtain ⟨fuel, rfl⟩ := Nat.exists_eq_add_of_le' (Nat.le_trans (Nat.le_add_left 1 steps) enough)
        rw [clusterNodeGetMaster, ClusterState.node, found, ok_bind, link]
        exact ended fuel (Nat.le_of_succ_le_succ enough)

end Packets

/-- A server that knows a master with epoch five and a replica in its shard. -/
def shard (link : Option Nat) : ClusterState Nat :=
  let master := createClusterNode .master false 0
  (((clusterInit ⟨0, [], fun _ => none, fun _ => none, 9, 0⟩ false).setNode 0 master).setNode 1
    { master with configEpoch := 5 }).setNode 2 { master with role := .slave, slaveof := link }

/-- An old ping, in which the master claims to be a replica of the other node. -/
def oldPing : ClusterMsg Nat := ⟨1, 0, 1, some 2, fun _ => false, false, .ping .ping [] (some 0) []⟩

/-- The server after the role switch. -/
def switched (link : Option Nat) : ClusterState Nat :=
  match checkRoleSwitch 1 oldPing (shard link) with
  | .ok s => s
  | .error _ => shard link

theorem shard_linked {link : Option Nat} (back : ∀ m, link = some m → m = 1) : (shard link).WellLinked := by
  have empty : (clusterInit (⟨0, [], fun _ => none, fun _ => none, 9, 0⟩ : SavedConfig Nat) false).WellLinked :=
    ⟨⟨fun n => ⟨n, fun m step => by obtain ⟨node, found, _⟩ := step; cases found⟩⟩, fun n node found => by cases found⟩
  apply ((empty.setNode _ _).setNode _ _).setNode
  · exact fun master => by cases master
  · rintro m is reaches
    cases back m is
    rcases reaches.cases_head with same | ⟨k, ⟨node, found, link⟩, _⟩
    · cases same
    · cases found
      cases link
  all_goals exact fun _ => by first | rfl | exact fun is => by cases is

theorem oldPing_processed (link : Option Nat) :
    clusterProcessPacket ⟨15000, false, 10, 10, true, false⟩ ⟨0, 0, 0, fun _ => false, false, fun _ => false, id⟩
      ⟨none, true, true⟩ oldPing (shard link) = .ok (switched link, none) := by
  have known : getNodeFromLinkAndMsg ⟨none, true, true⟩ oldPing (shard link) = some 1 := rfl
  have learned : updateEpochs 1 oldPing (shard link) = .ok (shard link) := rfl
  have role : checkRoleSwitch 1 oldPing (shard link) = .ok (switched link) := rfl
  have clean : dirtySlots 1 oldPing (switched link) = .ok false := by
    change (pure (decide ((fun _ => false : Bitmap) ≠ fun _ => false)) : Checked Bool) = .ok false
    rw [decide_eq_false (not_not_intro rfl)]
    rfl
  rw [clusterProcessPacket_inbound _ _ known rfl rfl, learned, ok_bind, processPing, role, ok_bind, clean]
  rfl

end Redis.Cluster

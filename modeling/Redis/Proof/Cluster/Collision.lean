/-
This file bounds the config epoch changes that collisions cause, and shows that they end with different epochs.
-/

import Redis.Foundation.Cascade
import Redis.Proof.Cluster.EpochNetwork

namespace Redis.Cluster
open Foundation
variable {Name : Type} [LinearOrder Name]

def ClusterState.ownEpoch (s : ClusterState Name) : Option UInt64 :=
  (s.nodes.lookup s.myself).map ClusterNode.configEpoch

/-- A master that knows only masters, none with an epoch ahead of the one that it has. -/
structure Knows (latest : Name → UInt64) (i : Name) (s : ClusterState Name) : Prop where
  myself : s.myself = i
  roles : ∀ j node, s.nodes.lookup j = some node → node.role = .master
  own : (s.nodes.lookup i).map ClusterNode.configEpoch = some (latest i)
  current : latest i ≤ s.currentEpoch
  seen : ∀ j node, s.nodes.lookup j = some node → node.configEpoch ≤ latest j

/-- The servers are masters with any config epochs. -/
def Network.Masters (w : Network Name) : Prop := w.sent = [] ∧ ∃ latest, ∀ i, Knows latest i (w.servers i)

/-- The networks after any number of headers was sent and received, with the number of config epoch changes. A header is
received at current epochs that are allowed, at any time after it was sent. -/
inductive CollisionRun (allowed : UInt64 → Prop) (w : Network Name) : Nat → Network Name → Prop
  | start : CollisionRun allowed w 0 w
  | send {changes : Nat} {w' : Network Name} {hdr : ClusterMsg Name} (server : Name) (data : ClusterMsgData Name) :
      CollisionRun allowed w changes w' → clusterBuildMessageHdr (w'.servers server) false data = .ok hdr →
      CollisionRun allowed w changes { w' with sent := w'.sent ++ [hdr] }
  | receive {changes : Nat} {w' : Network Name} {hdr : ClusterMsg Name} {s : ClusterState Name} (server : Name) :
      CollisionRun allowed w changes w' → hdr ∈ w'.sent → allowed (epochAfter (w'.servers server) hdr) →
      processEpochs hdr.sender hdr (w'.servers server) = .ok s →
      CollisionRun allowed w (if s.ownEpoch = (w'.servers server).ownEpoch then changes else changes + 1)
        { w' with servers := Function.update w'.servers server s }

/-- Every server receives the latest header of every other one, and no config epoch changes. -/
def Network.Quiet (allowed : UInt64 → Prop) (w : Network Name) : Prop :=
  ∀ i j, i ≠ j → ∃ data hdr s, clusterBuildMessageHdr (w.servers j) false data = .ok hdr ∧
    allowed (epochAfter (w.servers i) hdr) ∧ processEpochs j hdr (w.servers i) = .ok s ∧
    s.ownEpoch = (w.servers i).ownEpoch

section Server
variable {latest : Name → UInt64} {i j : Name} {s : ClusterState Name}

variable (knows : Knows latest i s)
include knows
theorem Knows.setNode {latest' : Name → UInt64} {epoch : UInt64} (node : ClusterNode Name)
    (role : node.role = .master) (more : ∀ k, latest k ≤ latest' k) (seen : node.configEpoch ≤ latest' j)
    (own : (if i = j then node.configEpoch else latest i) = latest' i) (current : latest' i ≤ epoch) :
    Knows latest' i (({ s with currentEpoch := epoch } : ClusterState Name).setNode j node) := by
  have found : ∀ k, (({ s with currentEpoch := epoch } : ClusterState Name).setNode j node).nodes.lookup k =
      if k = j then some node else s.nodes.lookup k := fun k => lookup_setNode _ j k node
  refine ⟨knows.myself, fun k node' => ?_, ?_, current, fun k node' => ?_⟩
  · rw [found]
    split_ifs
    · rintro ⟨⟩
      exact role
    · exact knows.roles k node'
  · rw [found, ← own]
    split_ifs
    · rfl
    · exact knows.own
  · rw [found]
    split_ifs with this
    · rintro ⟨⟩
      exact this ▸ seen
    · exact fun known => UInt64.le_trans (knows.seen k node' known) (more k)

/-- The view of the sender is at least the epoch of its header afterwards. -/
theorem updateEpochs_knows {hdr : ClusterMsg Name} (sent : hdr.configEpoch ≤ latest j) :
    Outcome (updateEpochs j hdr s) (fun _ => True) fun s' => Knows latest i s' ∧ s'.currentEpoch = epochAfter s hdr ∧
      ∀ node, s'.nodes.lookup j = some node → hdr.configEpoch ≤ node.configEpoch := by
  apply Outcome.node
  intro node found
  rw [raise_eq]
  have current := UInt64.le_trans knows.current (currentEpoch_le_epochAfter s hdr).1
  by_cases newer : hdr.configEpoch > node.configEpoch
  · rw [if_pos newer]
    refine ⟨knows.setNode _ (knows.roles j node found) (fun _ => UInt64.le_refl _) sent ?_ current, rfl, ?_⟩
    · split_ifs with mine
      · have own := knows.own
        rw [mine, found] at own
        rw [← Option.some.inj own] at sent
        exact absurd newer (UInt64.not_lt.mpr sent)
      · rfl
    · intro node' found'
      rw [lookup_setNode, if_pos rfl] at found'
      cases found'
      exact UInt64.le_refl _
  · rw [if_neg newer]
    refine ⟨⟨knows.myself, knows.roles, knows.own, current, knows.seen⟩, rfl, fun node' found' => ?_⟩
    cases found.symm.trans found'
    exact UInt64.not_lt.mp newer

theorem takeNextEpoch_knows (room : s.currentEpoch ≠ lastEpoch) :
    Outcome (takeNextEpoch s) (fun _ => True) fun s' =>
      ∃ epoch, latest i < epoch ∧ Knows (Function.update latest i epoch) i s' := by
  apply Outcome.node
  intro me found
  have greater := UInt64.lt_of_le_of_lt knows.current (lt_add_one_of_ne room)
  refine ⟨s.currentEpoch + 1, greater, knows.setNode _ (knows.roles _ me found) (fun k => ?_) ?_ ?_ ?_⟩
  · by_cases mine : k = i
    · subst mine
      rw [Function.update_self]
      exact UInt64.le_of_lt greater
    · rw [Function.update_of_ne mine]
      exact UInt64.le_refl _
  · rw [knows.myself, Function.update_self]
    exact UInt64.le_refl _
  · rw [if_pos knows.myself.symm, Function.update_self]
  · rw [Function.update_self]
    exact UInt64.le_refl _

/-- A server moves on exactly when a greater one has its epoch, as far as the server knows. -/
theorem processEpochs_knows {hdr : ClusterMsg Name} (sent : hdr.configEpoch ≤ latest j)
    (room : epochAfter s hdr ≠ lastEpoch) :
    Outcome (processEpochs j hdr s) (fun _ => True) fun s' =>
      (Knows latest i s' ∧ (i < j → hdr.configEpoch = latest j → latest i ≠ latest j)) ∨
      (i < j ∧ hdr.configEpoch = latest i ∧
        ∃ epoch, latest i < epoch ∧ Knows (Function.update latest i epoch) i s') := by
  apply (updateEpochs_knows knows sent).bind
  rintro s₁ ⟨knows₁, current, view⟩
  apply Outcome.node
  intro node found
  apply Outcome.node
  intro me foundMe
  have own := knows₁.own
  rw [← knows₁.myself, foundMe, knows₁.myself] at own
  have mine : me.configEpoch = latest i := Option.some.inj own
  have master := knows₁.roles j node found
  have meMaster := knows₁.roles _ me foundMe
  by_cases collides : hdr.configEpoch = me.configEpoch
  · rw [if_pos ⟨meMaster, master, collides⟩, clusterHandleConfigEpochCollision, ClusterState.node, found,
      ClusterState.node, foundMe]
    by_cases stale : node.configEpoch = me.configEpoch
    · rw [ok_bind, ok_bind, if_neg (by simp [stale, master, meMaster]), knows₁.myself]
      by_cases smaller : j ≤ i
      · rw [if_pos smaller]
        exact Or.inl ⟨knows₁, fun greater => absurd greater smaller.not_gt⟩
      · rw [if_neg smaller]
        apply (takeNextEpoch_knows knows₁ (current ▸ room)).mono
        intro s' moved
        exact Or.inr ⟨not_le.mp smaller, collides.trans mine, moved⟩
    · rw [ok_bind, ok_bind, if_pos (Or.inl stale)]
      refine Or.inl ⟨knows₁, fun _ latestOne _ => stale ?_⟩
      -- the view is between the epoch of the header and the latest epoch of the sender
      rw [← collides]
      exact UInt64.le_antisymm (latestOne ▸ knows₁.seen j node found) (view node found)
  · rw [if_neg fun all => collides all.2.2]
    exact Or.inl ⟨knows₁, fun _ latestOne equal => collides (latestOne.trans (equal.symm.trans mine.symm))⟩

theorem clusterBuildMessageHdr_knows (data : ClusterMsgData Name) :
    Outcome (clusterBuildMessageHdr s false data) (fun _ => True) fun hdr =>
      hdr.sender = i ∧ hdr.configEpoch = latest i := by
  apply Outcome.node
  intro me found
  have own := knows.own
  rw [← knows.myself, found, knows.myself] at own
  rw [announcedMaster, knows.roles _ me found]
  exact ⟨knows.myself, Option.some.inj own⟩
end Server

section Bound
variable {latest : Name → UInt64} {held : Name → Finset UInt64} {w w' : Network Name} {changes : Nat}

/-- The epochs that the servers had. A server leaves an epoch only for a greater server that had it. -/
structure History (latest : Name → UInt64) (held : Name → Finset UInt64) (w : Network Name) : Prop where
  servers : ∀ i, Knows latest i (w.servers i)
  sent : ∀ hdr ∈ w.sent, hdr.configEpoch ∈ held hdr.sender
  top : ∀ i, latest i ∈ held i ∧ ∀ epoch ∈ held i, epoch ≤ latest i
  left : ∀ i, ∀ epoch ∈ held i, epoch = latest i ∨ ∃ j, i < j ∧ epoch ∈ held j

theorem History.keep (history : History latest held w) {i : Name} {s : ClusterState Name} (knows : Knows latest i s) :
    History latest held { w with servers := Function.update w.servers i s } := by
  refine ⟨fun k => ?_, history.sent, history.top, history.left⟩
  exact (Function.forall_update_iff w.servers (Knows latest)).mpr ⟨knows, fun k _ => history.servers k⟩ k

theorem History.move (history : History latest held w) {i j : Name} {s : ClusterState Name} {epoch : UInt64}
    (greater : i < j) (had : latest i ∈ held j) (above : latest i < epoch)
    (knows : Knows (Function.update latest i epoch) i s) :
    History (Function.update latest i epoch) (Function.update held i (insert epoch (held i)))
      { w with servers := Function.update w.servers i s } := by
  have more : ∀ k, held k ⊆ Function.update held i (insert epoch (held i)) k :=
    (Function.forall_update_iff held fun k epochs => held k ⊆ epochs).mpr
      ⟨Finset.subset_insert epoch (held i), fun k _ => Finset.Subset.refl (held k)⟩
  have ahead : ∀ k, latest k ≤ Function.update latest i epoch k :=
    (Function.forall_update_iff latest fun k later => latest k ≤ later).mpr
      ⟨UInt64.le_of_lt above, fun k _ => UInt64.le_refl _⟩
  refine ⟨?_, fun hdr inside => more _ (history.sent hdr inside), fun k => ?_, fun k before inside => ?_⟩
  · refine (Function.forall_update_iff w.servers (Knows _)).mpr ⟨knows, fun k other => ?_⟩
    obtain ⟨myself, roles, own, current, seen⟩ := history.servers k
    refine ⟨myself, roles, ?_, ?_, fun j node found => UInt64.le_trans (seen j node found) (ahead j)⟩
    · rwa [Function.update_of_ne other]
    · rwa [Function.update_of_ne other]
  · by_cases mine : k = i
    · subst mine
      rw [Function.update_self, Function.update_self]
      refine ⟨Finset.mem_insert_self _ _, fun before inside => ?_⟩
      rcases Finset.mem_insert.mp inside with rfl | old
      · exact UInt64.le_refl _
      · exact UInt64.le_trans ((history.top k).2 before old) (UInt64.le_of_lt above)
    · rw [Function.update_of_ne mine, Function.update_of_ne mine]
      exact history.top k
  · have earlier : before = Function.update latest i epoch k ∨ ∃ j, k < j ∧ before ∈ held j := by
      by_cases mine : k = i
      · subst mine
        rw [Function.update_self] at inside ⊢
        rcases Finset.mem_insert.mp inside with same | old
        · exact Or.inl same
        · rcases history.left k before old with rfl | left
          · exact Or.inr ⟨j, greater, had⟩
          · exact Or.inr left
      · rw [Function.update_of_ne mine] at inside ⊢
        exact history.left k before inside
    exact earlier.imp_right fun ⟨j, greater, had⟩ => ⟨j, greater, more j had⟩

theorem Knows.ownEpoch_eq {i : Name} {s : ClusterState Name} (knows : Knows latest i s) :
    s.ownEpoch = some (latest i) := by
  rw [ClusterState.ownEpoch, knows.myself, knows.own]

variable [Fintype Name]

/-- The sets have one more epoch for each change. -/
theorem collisionRun_history (run : CollisionRun (· ≠ lastEpoch) w changes w') (masters : w.Masters) :
    ∃ latest held, History latest held w' ∧ ∑ i, (held i).card = changes + Fintype.card Name := by
  induction run with
  | start =>
    obtain ⟨silent, latest, servers⟩ := masters
    refine ⟨latest, fun i => {latest i}, ⟨servers, ?_, ?_, ?_⟩, ?_⟩ <;> simp [silent]
  | @send changes w₁ hdr server data _ built ih =>
    obtain ⟨latest, held, history, total⟩ := ih
    refine ⟨latest, held, ⟨history.servers, fun message inside => ?_, history.top, history.left⟩, total⟩
    rcases List.mem_append.mp inside with before | last
    · exact history.sent message before
    · obtain ⟨rfl, same⟩ := (clusterBuildMessageHdr_knows (history.servers server) data).of_ok built
      rw [List.mem_singleton.mp last, same]
      exact (history.top hdr.sender).1
  | @receive changes w₁ hdr s server _ sent room received ih =>
    obtain ⟨latest, held, history, total⟩ := ih
    have knows := history.servers server
    have had := history.sent hdr sent
    rcases (processEpochs_knows knows ((history.top _).2 _ had) room).of_ok received with
      ⟨kept, _⟩ | ⟨greater, same, epoch, above, moved⟩
    · rw [if_pos (kept.ownEpoch_eq.trans knows.ownEpoch_eq.symm)]
      exact ⟨latest, held, history.keep kept, total⟩
    · have changed : s.ownEpoch ≠ (w₁.servers server).ownEpoch := by
        rw [moved.ownEpoch_eq, knows.ownEpoch_eq, Function.update_self]
        exact fun equal => UInt64.ne_of_lt above (Option.some.inj equal).symm
      rw [if_neg changed]
      refine ⟨_, _, history.move greater (same ▸ had) above moved, ?_⟩
      have fresh : epoch ∉ held server := fun inside => UInt64.not_lt.mpr ((history.top server).2 epoch inside) above
      have cards : ∀ k, (Function.update held server (insert epoch (held server)) k).card =
          (held k).card + if k = server then 1 else 0 := by
        refine (Function.forall_update_iff held fun k epochs => epochs.card = (held k).card + if k = server then 1 else 0).mpr
          ⟨?_, fun k other => by rw [if_neg other, Nat.add_zero]⟩
        rw [if_pos rfl, Finset.card_insert_of_notMem fresh]
      simp only [cards, Finset.sum_add_distrib, total, Finset.sum_ite_eq', Finset.mem_univ, if_true]
      omega

/-- A set has one epoch more at most than those of the greater servers together. -/
theorem History.cascade (history : History latest held w) (i : Name) :
    (held i).card ≤ ∑ j with i < j, (held j).card + 1 := by
  have within : held i ⊆ insert (latest i) ((Finset.univ.filter (i < ·)).biUnion held) := by
    intro epoch inside
    rcases history.left i epoch inside with rfl | ⟨j, greater, had⟩
    · exact Finset.mem_insert_self _ _
    · apply Finset.mem_insert_of_mem
      simpa using ⟨j, greater, had⟩
  calc (held i).card ≤ _ := Finset.card_le_card within
    _ ≤ _ := Finset.card_insert_le _ _
    _ ≤ _ := Nat.succ_le_succ Finset.card_biUnion_le

end Bound

def twins (currentEpoch configEpoch : UInt64) : Network Bool :=
  let node := { createClusterNode .master false false with configEpoch := configEpoch }
  ⟨fun i => ((clusterInit ⟨i, [], fun _ => none, fun _ => none, currentEpoch, 0⟩ false).setNode false node).setNode true
    node, fun _ => none, []⟩

theorem twins_masters {currentEpoch configEpoch : UInt64} (behind : configEpoch ≤ currentEpoch) :
    (twins currentEpoch configEpoch).Masters := by
  refine ⟨rfl, fun _ => configEpoch, fun i => ⟨rfl, ?_, by cases i <;> rfl, behind, ?_⟩⟩
  all_goals
    intro j node found
    rw [twins, lookup_setNode, lookup_setNode] at found
    split_ifs at found <;> cases found <;> simp [createClusterNode]

end Redis.Cluster

import Redis.Construction.Cluster.Query
import Redis.Foundation.Outcome

namespace Redis.Cluster
open Foundation List
variable {Name Key : Type} [DecidableEq Name] [DecidableEq Key]

/-- The arguments of the commands in order. A marked one is in or behind a command with channels. -/
def marked : Bool → List (MultiCmd Key) → List (Bool × KeyReference Key)
  | _, [] => []
  | mark, cmd :: cmds => cmd.keys.map (mark || cmd.channels, ·) ++ marked (mark || cmd.channels) cmds

section Scan
variable (server : QueryServer Name Key)

/-- All arguments belong to one slot that a node serves. -/
def OneSlot (named : List (Bool × KeyReference Key)) : Prop :=
  ∀ a ∈ named, server.cluster.slots (server.keyHashSlot a.2.name) ≠ none ∧
    ∀ b ∈ named, server.keyHashSlot a.2.name = server.keyHashSlot b.2.name

/-- The state of the scan after some arguments. -/
structure Scanned (mark : Bool) (done : List (Bool × KeyReference Key)) (scan : QueryScan Name Key) : Prop where
  included : scan.pubsubshardIncluded = mark
  start : done = [] → scan = { scanStart with pubsubshardIncluded := mark }
  firstkey : scan.firstkey = done.head?.map (·.2.name)
  slot : ∀ entry ∈ done, server.keyHashSlot entry.2.name = scan.slot
  owner : done ≠ [] → scan.n ≠ none ∧ scan.n = server.cluster.slots scan.slot ∧
    scan.migratingSlot = (decide (scan.n = some server.cluster.myself) &&
      (server.cluster.migratingSlotsTo scan.slot).isSome) ∧
    scan.importingSlot = (!scan.migratingSlot && (server.cluster.importingSlotsFrom scan.slot).isSome)
  counts : (scan.migratingSlot || scan.importingSlot) = true →
    scan.missingKeys = done.countP (fun entry => !entry.1 && !server.present entry.2.name) ∧
    scan.existingKeys = done.countP fun entry => !entry.1 && server.present entry.2.name
  multiple : scan.importingSlot = true →
    scan.multipleKeys = done.any fun entry => decide (scan.firstkey ≠ some entry.2.name)

/-- A part of the loops scans the arguments, or the request is turned away. -/
def Scans (mark : Bool) (done : List (Bool × KeyReference Key)) (loop : Except ClusterRedir (QueryScan Name Key)) : Prop :=
  Outcome loop (fun _ => ¬ OneSlot server done) (Scanned server mark done)

variable {server} {mark : Bool} {done : List (Bool × KeyReference Key)} {scan : QueryScan Name Key}

theorem Scans.bind {mark' : Bool} {more : List (Bool × KeyReference Key)} {loop : Except ClusterRedir (QueryScan Name Key)}
    {next : QueryScan Name Key → Except ClusterRedir (QueryScan Name Key)} (first : Scans server mark done loop)
    (second : ∀ scan, Scanned server mark done scan → Scans server mark' (done ++ more) (next scan)) :
    Scans server mark' (done ++ more) (loop >>= next) := by
  cases loop with
  | ok scan => exact second scan first
  | error code =>
    intro one
    apply first
    intro a member
    obtain ⟨served, same⟩ := one a (mem_append_left more member)
    exact ⟨served, fun b other => same b (mem_append_left more other)⟩

omit [DecidableEq Name] [DecidableEq Key] in
theorem countKey_eq (server : QueryServer Name Key) (scan : QueryScan Name Key) (name : Key) :
    countKey server scan name = { scan with
      missingKeys := scan.missingKeys + (if (scan.migratingSlot || scan.importingSlot) && !scan.pubsubshardIncluded &&
        !server.present name then 1 else 0)
      existingKeys := scan.existingKeys + (if (scan.migratingSlot || scan.importingSlot) && !scan.pubsubshardIncluded &&
        server.present name then 1 else 0) } := by
  obtain ⟨_, _, _, _, migrating, importing, included, _, _⟩ := scan
  cases found : server.present name <;> cases migrating <;> cases importing <;> cases included <;> simp [countKey, found]

theorem scanKey_scans (scanned : Scanned server mark done scan) (key : KeyReference Key) :
    Scans server mark (done ++ [(mark, key)]) (scanKey server scan key.name) := by
  have included := scanned.included
  rcases done with _ | ⟨head, done⟩
  · have first : scan.firstkey = none := scanned.firstkey
    rw [scanKey, first]
    dsimp only
    cases owner : server.cluster.slots (server.keyHashSlot key.name) with
    | none => exact fun one => (one (mark, key) (by simp)).1 owner
    | some n =>
      dsimp only
      rw [countKey_eq]
      obtain ⟨missing, existing, multiple⟩ :
          scan.missingKeys = 0 ∧ scan.existingKeys = 0 ∧ scan.multipleKeys = false := by
        rw [scanned.start rfl]
        exact ⟨rfl, rfl, rfl⟩
      refine ⟨included, by simp, by simp, by simp, fun _ => ⟨nofun, owner.symm, by simp, rfl⟩, fun isOpen => ?_, fun _ => ?_⟩
      · dsimp only at isOpen ⊢
        rw [missing, existing, isOpen, included, nil_append, countP_singleton, countP_singleton]
        simp
      · simp [multiple]
  · have first : scan.firstkey = some head.2.name := scanned.firstkey
    rw [scanKey, first]
    dsimp only
    have same := scanned.slot head (by simp)
    by_cases cross : scan.slot ≠ server.keyHashSlot key.name
    · rw [if_pos cross]
      exact fun one => cross (same ▸ (one head (by simp)).2 (mark, key) (by simp))
    · rw [if_neg cross, countKey_eq]
      push Not at cross
      refine ⟨included, by simp, by simp, ?_, fun _ => scanned.owner (by simp), fun isOpen => ?_, fun importing => ?_⟩
      · intro entry member
        rcases mem_append.mp member with member | member
        · exact scanned.slot entry member
        · rw [mem_singleton.mp member, cross]
      · obtain ⟨missing, existing⟩ := scanned.counts isOpen
        dsimp only at isOpen ⊢
        rw [missing, existing, countP_append, countP_append, countP_singleton, countP_singleton, isOpen, included]
        simp
      · have multiple := scanned.multiple importing
        dsimp only at importing ⊢
        rw [multiple, any_append, importing, first]
        simp

theorem scanKeys_scans (keys : List (KeyReference Key)) (scanned : Scanned server mark done scan) :
    Scans server mark (done ++ keys.map (mark, ·)) ((keys.map KeyReference.name).foldlM (scanKey server) scan) := by
  induction keys generalizing done scan with
  | nil => simpa [Scans] using scanned
  | cons key keys ih =>
    rw [map_cons, map_cons, foldlM_cons, append_cons]
    exact (scanKey_scans scanned key).bind fun scan' scanned' => ih scanned'

theorem scanCommands_scans (cmds : List (MultiCmd Key)) (scanned : Scanned server mark done scan) :
    Scans server (mark || cmds.any MultiCmd.channels) (done ++ marked mark cmds) (cmds.foldlM (scanCommand server) scan) := by
  induction cmds generalizing mark done scan with
  | nil => simpa [Scans, marked] using scanned
  | cons cmd cmds ih =>
    rw [marked, ← append_assoc, foldlM_cons, any_cons, ← Bool.or_assoc]
    have begun : Scanned server (mark || cmd.channels) done
        { scan with pubsubshardIncluded := scan.pubsubshardIncluded || cmd.channels } :=
      ⟨by rw [scanned.included], fun empty => by rw [scanned.start empty], scanned.firstkey, scanned.slot, scanned.owner,
        scanned.counts, scanned.multiple⟩
    exact (scanKeys_scans cmd.keys begun).bind fun scan' scanned' => ih scanned'
end Scan

section Requests
variable (server : QueryServer Name Key) (c : QueryClient Key)

def QueryClient.named : List (Bool × KeyReference Key) := marked false c.commands

/-- The request is executed by this node. -/
def Accepted : Prop := (getNodeByQuery server c).node = some server.cluster.myself

/-- Every key that a command of the request names is in the database. -/
def KeysPresent : Prop := ∀ entry ∈ c.named, entry.2.notKey = false → server.present entry.2.name = true

def firstSlot : Option Slot := c.named.head?.map fun entry => server.keyHashSlot entry.2.name

/-- This node is the owner of a migrating slot, or it imports the slot and the client asks for two different keys. -/
def OpenSlot : Prop :=
  ∃ slot, firstSlot server c = some slot ∧
    (server.cluster.slots slot = some server.cluster.myself ∧ server.cluster.migratingSlotsTo slot ≠ none ∨
      server.cluster.importingSlotsFrom slot ≠ none ∧ (c.asking || c.cmdAsking) = true ∧
        ∃ a ∈ c.named, ∃ b ∈ c.named, a.2.notKey = false ∧ b.2.notKey = false ∧ a.2.name ≠ b.2.name)

/-- The arguments are in one slot, and the state of the cluster does not stop the request. -/
def Routed : Prop :=
  OneSlot server c.named ∧ (server.stateOk = true ∨ if c.commands.any MultiCmd.channels
    then server.allowPubsubshardWhenDown = true else server.allowReadsWhenDown = true ∧ c.cmdWrite = false)

/-- The slot is migrated to this node itself. -/
def OwnTarget : Prop :=
  ∃ slot, firstSlot server c = some slot ∧ server.cluster.slots slot = some server.cluster.myself ∧
    server.cluster.migratingSlotsTo slot = some server.cluster.myself

/-- The arguments before all commands with channels are all in the database, or all missing. -/
def LookedUp (found : Bool) : Prop := ∀ entry ∈ c.named, entry.1 = false → server.present entry.2.name = found

/-- The keys that are not looked up are present all the same: all keys when a module turns redirections off, the keys in
and behind a command with channels, and the keys of a slot that is migrated to this node itself. -/
structure UncheckedPresent : Prop where
  module : server.noRedirection = true → KeysPresent server c
  channels : Routed server c → LookedUp server c true →
    ∀ entry ∈ c.named, entry.1 = true → entry.2.notKey = false → server.present entry.2.name = true
  itself : Routed server c → OwnTarget server c → LookedUp server c false → KeysPresent server c

variable {server c} {scan : QueryScan Name Key} {mark : Bool}

omit [DecidableEq Name] [DecidableEq Key] in
theorem downError_none_iff (included : Bool) : downError server c included = none ↔
    server.stateOk = true ∨ if included then server.allowPubsubshardWhenDown = true
      else server.allowReadsWhenDown = true ∧ c.cmdWrite = false := by
  unfold downError
  cases server.stateOk <;> cases included <;> cases server.allowPubsubshardWhenDown <;>
    cases server.allowReadsWhenDown <;> cases c.cmdWrite <;> simp

omit [DecidableEq Key] in
theorem routeQuery_migrating (migrating : scan.migratingSlot = true) (importing : scan.importingSlot = false)
    (ordinary : c.proc ≠ .migrateCommand) :
    (routeQuery server c scan server.cluster.myself).node = some server.cluster.myself ↔ scan.missingKeys = 0 ∨
      scan.existingKeys = 0 ∧ server.cluster.migratingSlotsTo scan.slot = some server.cluster.myself := by
  unfold routeQuery
  by_cases missing : scan.missingKeys = 0
  · simp only [migrating, importing, ordinary, missing]
    split_ifs <;> simp_all
  · by_cases existing : scan.existingKeys = 0 <;> simp [migrating, ordinary, missing, existing]

omit [DecidableEq Key] in
theorem routeQuery_importing {n : Name} (migrating : scan.migratingSlot = false) (importing : scan.importingSlot = true)
    (multiple : scan.multipleKeys = true) (asks : (c.asking || c.cmdAsking) = true) (ordinary : c.proc ≠ .migrateCommand) :
    (routeQuery server c scan n).node = some server.cluster.myself ↔ scan.missingKeys = 0 := by
  unfold routeQuery
  by_cases missing : scan.missingKeys = 0 <;> simp [migrating, importing, multiple, asks, ordinary, missing]

theorem routeQuery_iff {n : Name} (isOpen : OpenSlot server c) (ordinary : c.proc ≠ .migrateCommand)
    (scanned : Scanned server mark c.named scan) (isN : scan.n = some n) :
    (routeQuery server c scan n).node = some server.cluster.myself ↔
      LookedUp server c true ∨ OwnTarget server c ∧ LookedUp server c false := by
  obtain ⟨slot, starts, kind⟩ := isOpen
  obtain ⟨first, head, isSlot⟩ := Option.map_eq_some_iff.mp starts
  obtain rfl : scan.slot = slot := (scanned.slot first (mem_of_mem_head? head)).symm.trans isSlot
  obtain ⟨_, owner, migrating, importing⟩ := scanned.owner fun empty => by simp [empty] at head
  rw [← owner, isN, Option.some_inj] at kind
  rw [isN] at migrating
  have lookups (isOpen : (scan.migratingSlot || scan.importingSlot) = true) :
      (scan.missingKeys = 0 ↔ LookedUp server c true) ∧ (scan.existingKeys = 0 ↔ LookedUp server c false) := by
    rw [(scanned.counts isOpen).1, (scanned.counts isOpen).2, countP_eq_zero, countP_eq_zero]
    simp [LookedUp]
  have target : OwnTarget server c ↔
      n = server.cluster.myself ∧ server.cluster.migratingSlotsTo scan.slot = some server.cluster.myself := by
    simp only [OwnTarget, starts, Option.some_inj, exists_eq_left', ← owner, isN]
  rw [target]
  by_cases owns : n = server.cluster.myself ∧ server.cluster.migratingSlotsTo scan.slot ≠ none
  · have migrates : scan.migratingSlot = true := by
      rw [migrating]
      simpa [Option.isSome_iff_ne_none] using owns
    have imports : scan.importingSlot = false := by
      rw [importing, migrates]
      rfl
    obtain ⟨missing, existing⟩ := lookups (by rw [migrates]; rfl)
    rw [owns.1, routeQuery_migrating migrates imports ordinary, missing, existing]
    exact or_congr_right (by rw [and_comm, and_iff_right rfl])
  · obtain ⟨source, asks, a, memberA, b, memberB, _, _, differ⟩ := kind.resolve_left owns
    have migrates : scan.migratingSlot = false := by
      rw [migrating]
      simpa [Option.isSome_iff_ne_none] using owns
    have imports : scan.importingSlot = true := by
      rw [importing, migrates]
      simpa [Option.isSome_iff_ne_none] using source
    have multiple : scan.multipleKeys = true := by
      rw [scanned.multiple imports, any_eq_true]
      by_cases same : scan.firstkey = some a.2.name
      · exact ⟨b, memberB, decide_eq_true fun other => differ (Option.some_inj.mp (same.symm.trans other))⟩
      · exact ⟨a, memberA, decide_eq_true same⟩
    rw [routeQuery_importing migrates imports multiple asks ordinary, (lookups (by rw [imports, Bool.or_true])).1]
    exact (or_iff_left fun other => owns ⟨other.1.1, by simp [other.1.2]⟩).symm

theorem accepted_iff (isOpen : OpenSlot server c) (ordinary : c.proc ≠ .migrateCommand)
    (redirects : server.noRedirection = false) :
    Accepted server c ↔
      Routed server c ∧ (LookedUp server c true ∨ OwnTarget server c ∧ LookedUp server c false) := by
  have begun : Scanned server false [] (scanStart : QueryScan Name Key) :=
    ⟨rfl, fun _ => rfl, rfl, nofun, fun empty => absurd rfl empty, fun _ => ⟨rfl, rfl⟩, fun _ => rfl⟩
  have looped := scanCommands_scans c.commands begun
  rw [Accepted, getNodeByQuery, if_neg (by simp [redirects])]
  cases result : c.commands.foldlM (scanCommand server) scanStart with
  | error code =>
    rw [result] at looped
    simp only [reduceCtorEq, false_iff]
    exact fun routed => looped routed.1.1
  | ok scan =>
    rw [result] at looped
    have scanned : Scanned server (c.commands.any MultiCmd.channels) c.named scan := looped
    obtain ⟨known, owner, _⟩ := scanned.owner fun empty => by
      obtain ⟨slot, starts, _⟩ := isOpen
      simp [firstSlot, empty] at starts
    obtain ⟨n, isN⟩ := Option.ne_none_iff_exists'.mp known
    have one : OneSlot server c.named := fun a memberA =>
      ⟨by rwa [scanned.slot a memberA, ← owner], fun b memberB =>
        (scanned.slot a memberA).trans (scanned.slot b memberB).symm⟩
    rw [Routed, and_iff_right one, ← scanned.included, ← downError_none_iff, ← routeQuery_iff isOpen ordinary scanned isN]
    dsimp only
    rw [isN]
    cases downError server c scan.pubsubshardIncluded <;> simp

/-- The owner of all slots, which are migrated to another node. -/
def migratingServer (present : Nat → Bool) : QueryServer Nat Nat :=
  { cluster := ⟨0, 0, 0, 1, ∅, fun _ => some 0, fun _ => false, fun _ => some 1, fun _ => none, 0, 0, false, 0, 0, 0, false⟩
    stateOk := true, noRedirection := false, allowPubsubshardWhenDown := true, allowReadsWhenDown := false
    keyHashSlot := fun _ => Fin.last 16383, present := present }

/-- The transaction of a publication and a read of one key. -/
def publishAndGet : QueryClient Nat :=
  { proc := .execCommand, cmd := ⟨false, []⟩, cmdWrite := false, cmdAsking := false, multi := true, asking := false
    readonly := false, mstate := [⟨true, []⟩, ⟨false, [⟨5, false⟩]⟩], mstateWrite := false }

theorem publishAndGet_open (present : Nat → Bool) : OpenSlot (migratingServer present) publishAndGet :=
  ⟨Fin.last 16383, rfl, .inl ⟨rfl, nofun⟩⟩

end Requests

section Redirections
variable (server : QueryServer Name Key) (c : QueryClient Key)

/-- The node owns the slot, it imports the slot and the client asks, or it is a replica of the owner and the request
does not write. -/
def MayExecute (slot : Slot) : Prop :=
  server.cluster.slots slot = some server.cluster.myself ∨
    server.cluster.importingSlotsFrom slot ≠ none ∧ (c.asking ∨ c.cmdAsking ∨ c.proc = .migrateCommand) ∨
    c.cmdWrite = false ∧ (c.proc = .execCommand → c.mstateWrite = false) ∧
      (server.cluster.nodes.lookup server.cluster.myself).any
        fun me => me.role = .slave && me.slaveof = server.cluster.slots slot

/-- The answers to a request whose arguments are in one slot. -/
def Rightful (slot : Slot) (reply : QueryResult Name) : Prop :=
  match reply.errorCode with
  | .none => reply.node = some server.cluster.myself ∧ MayExecute server c slot
  | .moved => reply.node = server.cluster.slots slot ∧ reply.node ≠ some server.cluster.myself ∧
      (server.cluster.importingSlotsFrom slot ≠ none → c.asking = false)
  | .ask => server.cluster.slots slot = some server.cluster.myself ∧ reply.node ≠ none ∧
      reply.node = server.cluster.migratingSlotsTo slot
  | .unstable => reply.node = none ∧
      (server.cluster.migratingSlotsTo slot ≠ none ∨ server.cluster.importingSlotsFrom slot ≠ none)
  | _ => reply.node = none ∧ server.stateOk = false

variable {server c} {slot : Slot} {scan : QueryScan Name Key} {mark : Bool}

theorem routeQuery_rightful {n : Name} (scanned : Scanned server mark c.named scan) (named : c.named ≠ [])
    (isN : scan.n = some n) : Rightful server c scan.slot (routeQuery server c scan n) := by
  obtain ⟨_, owner, migrating, importing⟩ := scanned.owner named
  rw [isN] at owner migrating
  clear scanned isN
  unfold routeQuery
  dsimp only
  split_ifs <;> simp_all [Rightful, MayExecute, ← owner, Option.isSome_iff_ne_none]
  all_goals tauto

theorem getNodeByQuery_rightful (redirects : server.noRedirection = false) (starts : firstSlot server c = some slot)
    (one : OneSlot server c.named) : Rightful server c slot (getNodeByQuery server c) := by
  have begun : Scanned server false [] (scanStart : QueryScan Name Key) :=
    ⟨rfl, fun _ => rfl, rfl, nofun, fun empty => absurd rfl empty, fun _ => ⟨rfl, rfl⟩, fun _ => rfl⟩
  have looped := scanCommands_scans c.commands begun
  rw [getNodeByQuery, if_neg (by simp [redirects])]
  cases result : c.commands.foldlM (scanCommand server) scanStart with
  | error code =>
    rw [result] at looped
    exact absurd one looped
  | ok scan =>
    rw [result] at looped
    have scanned : Scanned server (c.commands.any MultiCmd.channels) c.named scan := looped
    obtain ⟨first, head, isSlot⟩ := Option.map_eq_some_iff.mp starts
    obtain rfl : scan.slot = slot := (scanned.slot first (mem_of_mem_head? head)).symm.trans isSlot
    have named : c.named ≠ [] := fun empty => by simp [empty] at head
    obtain ⟨n, isN⟩ := Option.ne_none_iff_exists'.mp (scanned.owner named).1
    dsimp only
    rw [isN]
    cases down : downError server c scan.pubsubshardIncluded with
    | none => exact routeQuery_rightful scanned named isN
    | some code =>
      unfold downError at down
      split_ifs at down <;> simp_all [Rightful] <;> subst down <;> simp

variable {servers : Name → QueryServer Name Key} {owner : Name}

/-- The nodes agree about the owner of the slot of a request outside a transaction, and the target of a migration imports
the slot. -/
structure Agreed (servers : Name → QueryServer Name Key) (c : QueryClient Key) (slot : Slot) (owner : Name) : Prop where
  single : c.proc ≠ .execCommand
  myself : ∀ node, (servers node).cluster.myself = node
  redirects : ∀ node, (servers node).noRedirection = false
  starts : ∀ node, firstSlot (servers node) c = some slot
  one : ∀ node, OneSlot (servers node) c.named
  owned : ∀ node, (servers node).cluster.slots slot = some owner
  target : ∀ node ∈ (servers owner).cluster.migratingSlotsTo slot,
    node ≠ owner ∧ (servers node).cluster.importingSlotsFrom slot ≠ none

/-- A node has sent a rightful reply that is not a redirection. -/
def Settled (servers : Name → QueryServer Name Key) (slot : Slot)
    (last : Option (Name × QueryClient Key × QueryResult Name)) : Prop :=
  ∃ node c reply, last = some (node, c, reply) ∧ Rightful (servers node) c slot reply ∧
    reply.errorCode ≠ .moved ∧ reply.errorCode ≠ .ask

omit [DecidableEq Name] [DecidableEq Key] in
theorem Agreed.reconnect (agreed : Agreed servers c slot owner) (asking : Bool) :
    Agreed servers (c.reconnect asking) slot owner := by
  have same : (c.reconnect asking).named = c.named := by
    simp [QueryClient.named, QueryClient.commands, QueryClient.reconnect, agreed.single]
  exact { agreed with
    starts := by simpa only [firstSlot, same] using agreed.starts
    one := by simpa only [same] using agreed.one }

/-- One round settles the request, leads to the owner, or leads from the owner to the target. -/
theorem Agreed.round (agreed : Agreed servers c slot owner) (again : Nat) (node : Name) :
    let last := issueCommandRepeat servers (again + 1) node c
    Settled servers slot last ∨
      (node ≠ owner ∧ ((servers node).cluster.importingSlotsFrom slot ≠ none → c.asking = false) ∧
        last = issueCommandRepeat servers again owner (c.reconnect false)) ∨
      ∃ next ∈ (servers owner).cluster.migratingSlotsTo slot, node = owner ∧
        last = issueCommandRepeat servers again next (c.reconnect true) := by
  have rightful := getNodeByQuery_rightful (agreed.redirects node) (agreed.starts node) (agreed.one node)
  have reply := rightful
  simp only [Rightful, agreed.owned, agreed.myself] at reply
  rw [issueCommandRepeat]
  dsimp only
  split
  next next code isNode =>
    simp only [code, isNode, Option.some.injEq] at reply
    obtain ⟨rfl, other, asks⟩ := reply
    exact .inr (.inl ⟨fun same => other (congrArg some same.symm), asks, rfl⟩)
  next next code isNode =>
    simp only [code, isNode, Option.some.injEq] at reply
    obtain ⟨rfl, _, target⟩ := reply
    exact .inr (.inr ⟨next, target.symm, rfl, rfl⟩)
  next moved ask =>
    refine .inl ⟨node, c, _, rfl, rightful, fun code => ?_, fun code => ?_⟩
    · simp only [code] at reply
      exact moved owner code reply.1
    · simp only [code] at reply
      obtain ⟨next, isNode⟩ := Option.ne_none_iff_exists'.mp reply.2.1
      exact ask next code isNode

/-- Node 0 migrates its slots to node 1. -/
def migratingServers (node : Nat) : QueryServer Nat Nat :=
  let server := migratingServer fun _ => false
  { server with cluster := { server.cluster with
      myself := node, importingSlotsFrom := fun _ => if node = 1 then some 0 else none } }

end Redirections
end Redis.Cluster

import Redis.Construction.Acl.User
import Redis.Proof.Acl.LastRule

namespace Redis.Acl
open Foundation List
open Redis.Aof (ascii)
variable {config : AclConfig} {state : AclState}
variable {c : AclClient} {name : Sds} {new original : User}

/-- The user permits every subscription of the client. -/
structure Permitted (config : AclConfig) (u : User) (c : AclClient) : Prop where
  patterns : ∀ o ∈ c.pubsubPatterns, aclUserCheckChannelPerm config u o true = true
  channels : ∀ o ∈ c.pubsubChannels, aclUserCheckChannelPerm config u o false = true
  shardChannels : ∀ o ∈ c.pubsubshardChannels, aclUserCheckChannelPerm config u o false = true

def AclClient.closing (c : AclClient) : Bool := c.closeAsap || c.closeAfterCommand

/-- Every client that is not scheduled to be closed is subscribed only to what its user permits. -/
def Lawful (config : AclConfig) (state : AclState) : Prop :=
  ∀ c ∈ state.clients, c.closing = false → ∀ name, c.user = some name →
    ∃ u, aclGetUserByName state name = some u ∧ Permitted config u c

inductive AclCommand where
  | setUser (username : Sds) (argv : List Sds)
  | delUser (usernames : List Sds)
  | load (content : Sds)

/-- One command. The replies are left out. -/
def aclStep (config : AclConfig) (state : AclState) : AclCommand → Checked (AclState × Unit)
  | .setUser username argv => do return ((← aclSetUserCommand config state username argv).1, ())
  | .delUser usernames => .ok (aclDelUserCommand state usernames, ())
  | .load content => do return ((← aclLoadFromFile config state content).1, ())

/-- The subscribers of the changed user are of the type that `ACL SETUSER` checks, and the default user has no subscriber
when the file is loaded. -/
def Checkable (state : AclState) : AclCommand → Prop
  | .setUser username _ => ∀ c ∈ state.clients, c.user = some username → c.subscribed → c.typePubsub
  | .delUser _ => True
  | .load _ => ∀ c ∈ state.clients, c.user = some defaultName → c.subscribed = false

theorem permitted_of_not_subscribed (u : User) (idle : c.subscribed = false) : Permitted config u c := by
  simp only [AclClient.subscribed, decide_eq_false_iff_not, not_or, not_not] at idle
  constructor
  · simp [idle.1]
  · simp [idle.2.1]
  · simp [idle.2.2]

theorem find?_filter_name (users : List User) {other : Sds} (apart : name ≠ other) :
    (users.filter (·.name ≠ other)).find? (·.name = name) = users.find? (·.name = name) := by
  rw [find?_filter]
  congr 1
  funext u
  by_cases same : u.name = name <;> simp [same, apart]

theorem getUserByName_putUser (state : AclState) (u : User) (name : Sds) :
    aclGetUserByName (state.putUser u) name = if name = u.name then some u else aclGetUserByName state name := by
  unfold AclState.putUser aclGetUserByName
  by_cases standard : u.name = defaultName
  · by_cases own : name = u.name
    · simp [standard, own]
    · simp [standard, show name ≠ defaultName from standard ▸ own]
  · rw [if_neg standard]
    by_cases own : name = u.name
    · simp [own, standard]
    · have other : ¬ u.name = name := fun same => own same.symm
      simp only [find?_cons, other, decide_false, find?_filter_name state.users own, if_neg own]

/-- The early exit of the check for a user that had no channels. -/
def Bare (u : User) : Prop := u.allSelectors.all fun s => !s.allchannels ∧ s.channels = []

theorem permitted_iff_not_violates (listed : ¬ new.allSelectors.any (·.allchannels) = true) (c : AclClient) :
    Permitted config new c ↔ violates config (new.allSelectors.flatMap (·.channels)) c = false := by
  have upcoming : ∀ o isPattern, aclCheckChannelAgainstList config (new.allSelectors.flatMap (·.channels)) o isPattern =
      aclUserCheckChannelPerm config new o isPattern := by
    intro o isPattern
    rw [aclCheckChannelAgainstList, any_flatMap]
    apply Bool.eq_iff_iff.2
    simp only [any_eq_true, Bool.not_eq_true, not_exists, not_and, aclUserCheckChannelPerm, aclCheckChannelAgainstList,
      Bool.or_eq_true] at listed ⊢
    exact exists_congr fun s => and_congr_right fun member => by simp [listed s member]
  simp only [violates, upcoming, Bool.or_eq_false_iff, any_eq_false, Bool.not_eq_eq_eq_not, Bool.not_true,
    Bool.not_eq_false]
  exact ⟨fun permitted => ⟨⟨permitted.patterns, permitted.channels⟩, permitted.shardChannels⟩,
    fun fine => ⟨fine.1.1, fine.1.2, fine.2⟩⟩

/-- A client goes when its user had channels and no longer permits what the client is subscribed to. -/
theorem mem_kept_iff : c ∈ aclKillPubsubClientsIfNeeded config state.clients name new original ↔ c ∈ state.clients ∧
    (c.user = some name → c.typePubsub → ¬ Bare original → Permitted config new c) := by
  unfold aclKillPubsubClientsIfNeeded
  split_ifs with idle everything nothing
  · refine (and_iff_left_of_imp fun member _ typed => ?_).symm
    simp only [AclClient.typePubsub, decide_eq_true_eq] at typed
    simpa [typed.2.2] using all_eq_true.1 idle c member
  · have all : ∀ o isPattern, aclUserCheckChannelPerm config new o isPattern = true := by
      intro o isPattern
      obtain ⟨s, member, flag⟩ := any_eq_true.1 everything
      exact any_eq_true.2 ⟨s, member, by simp [flag]⟩
    exact (and_iff_left fun _ _ _ => ⟨fun o _ => all o true, fun o _ => all o false, fun o _ => all o false⟩).symm
  · exact (and_iff_left fun _ _ listed => absurd nothing listed).symm
  · rw [mem_filter, permitted_iff_not_violates everything]
    have listed : ¬ Bare original := nothing
    simp [listed, imp_iff_not_or]

theorem permitted_of_kept
    (kept : c ∈ aclKillPubsubClientsIfNeeded config state.clients name new original) (client : c.user = some name)
    (checked : c.subscribed → c.typePubsub) (before : Permitted config original c) : Permitted config new c := by
  cases subscribed : c.subscribed with
  | false => exact permitted_of_not_subscribed new subscribed
  | true =>
    apply (mem_kept_iff.1 kept).2 client (checked subscribed)
    intro nothing
    have none' : ∀ o isPattern, ¬ aclUserCheckChannelPerm config original o isPattern = true := by
      intro o isPattern permits
      obtain ⟨s, member, allowed⟩ := any_eq_true.1 permits
      have bare := all_eq_true.1 nothing s member
      simp only [Bool.not_eq_eq_eq_not, decide_eq_true_eq] at bare
      simp [bare.1, bare.2, aclCheckChannelAgainstList] at allowed
    simp only [AclClient.subscribed, decide_eq_true_eq] at subscribed
    rcases subscribed with some | some | some
    · obtain ⟨o, member⟩ := exists_mem_of_ne_nil _ some
      exact none' o true (before.patterns o member)
    · obtain ⟨o, member⟩ := exists_mem_of_ne_nil _ some
      exact none' o false (before.channels o member)
    · obtain ⟨o, member⟩ := exists_mem_of_ne_nil _ some
      exact none' o false (before.shardChannels o member)

theorem putUser_clients (state : AclState) (u : User) : (state.putUser u).clients = state.clients := by
  unfold AclState.putUser
  split_ifs <;> rfl

theorem lawful_setUser (lawful : Lawful config state) (username : Sds) (argv : List Sds)
    (checkable : Checkable state (.setUser username argv)) :
    Outcome (aclStringSetUser config state username argv) (fun _ => True) fun result => Lawful config result.1 := by
  unfold aclStringSetUser
  cases (aclMergeSelectorArguments argv).1 with
  | none => exact lawful
  | some args =>
    apply Outcome.bind (outcome_any _)
    intro result _
    cases result with
    | error errno => exact lawful
    | ok tempu =>
      intro c member open' name user
      rw [putUser_clients] at member
      rw [getUserByName_putUser]
      have known : c ∈ state.clients := by
        split at member
        · exact (mem_kept_iff.1 member).1
        · exact member
      obtain ⟨u, found, permitted⟩ := lawful c known open' name user
      by_cases own : name = username
      · subst own
        rw [if_pos rfl]
        simp only [found] at member
        exact ⟨_, rfl, permitted_of_kept member user (checkable c known user) permitted⟩
      · rw [if_neg own]
        exact ⟨u, found, permitted⟩

/-- The clients of a deleted user are scheduled to be closed, the others stay as they are. -/
theorem freeUser_client {u : User} (member : c ∈ (aclFreeUserAndKillClients state u).clients)
    (open' : c.closing = false) : c ∈ state.clients ∧ c.user ≠ some u.name := by
  obtain ⟨old, known, rfl⟩ := mem_map.1 member
  by_cases own : old.user = some u.name
  · rw [if_pos own] at open'
    simp only [AclClient.closing, Bool.or_eq_false_iff, decide_eq_false_iff_not] at open'
    exact absurd open'.2.2 open'.1.2
  · rw [if_neg own]
    exact ⟨known, own⟩

theorem lawful_delUser (lawful : Lawful config state) (username : Sds) : Lawful config (delUser state username) := by
  unfold delUser
  cases found : state.users.find? (·.name = username) with
  | none => exact lawful
  | some u =>
    have same : u.name = username := by simpa using find?_some found
    intro c member open' name user
    obtain ⟨known, apart⟩ := freeUser_client member open'
    obtain ⟨owner, lookup, permitted⟩ := lawful c known open' name user
    have distinct : name ≠ username := fun equal => apart (by rw [user, equal, same])
    refine ⟨owner, ?_, permitted⟩
    rw [← lookup]
    unfold aclGetUserByName
    rw [show (aclFreeUserAndKillClients { state with users := state.users.filter (·.name ≠ username) } u).users =
      state.users.filter (·.name ≠ username) from rfl, find?_filter_name state.users distinct]
    rfl

theorem lawful_delUserCommand (lawful : Lawful config state) (usernames : List Sds) :
    Lawful config (aclDelUserCommand state usernames) := by
  unfold aclDelUserCommand
  split_ifs with standard
  · exact lawful
  · clear standard
    induction usernames generalizing state with
    | nil => exact lawful
    | cons username usernames ih => exact ih (lawful_delUser lawful username)

theorem freeUsers_client (users : List User) (member : c ∈ (users.foldl aclFreeUserAndKillClients state).clients)
    (open' : c.closing = false) : c ∈ state.clients ∧ ∀ u ∈ users, c.user ≠ some u.name := by
  induction users generalizing state with
  | nil => exact ⟨member, by simp⟩
  | cons u users ih =>
    obtain ⟨before, later⟩ := ih member
    obtain ⟨known, apart⟩ := freeUser_client before open'
    refine ⟨known, fun other listed => ?_⟩
    rcases mem_cons.1 listed with rfl | listed
    · exact apart
    · exact later other listed

theorem lawful_load (lawful : Lawful config state) (content : Sds) (checkable : Checkable state (.load content)) :
    Outcome (aclLoadFromFile config state content) (fun _ => True) fun result => Lawful config result.1 := by
  unfold aclLoadFromFile
  apply Outcome.bind (outcome_any _)
  intro ⟨users, errors⟩ _
  dsimp only
  split_ifs with clean
  · intro c member open' name user
    obtain ⟨known, apart⟩ := freeUsers_client state.users member open'
    obtain ⟨u, found, -⟩ := lawful c known open' name user
    have standard : name = defaultName := by
      by_contra other
      rw [aclGetUserByName, if_neg other] at found
      have same : u.name = name := by simpa using find?_some found
      exact apart u (mem_of_find?_eq_some found) (by rw [user, same])
    subst standard
    exact ⟨_, if_pos rfl, permitted_of_not_subscribed _ (checkable c known user)⟩
  · exact lawful

def sampleConfig : AclConfig where
  table := sampleTable
  aclPubsubDefault := false
  hashPassword := id
  stringmatchlen := fun pattern channel => pattern = channel

/-- A client of the default user with a subscription to one channel. -/
def sampleClient : AclClient := ⟨1, some defaultName, true, false, false, false, false, false, [], [ascii "news"], []⟩

def sampleState : AclState := ⟨aclCreateDefaultUser sampleConfig, [], [sampleClient], 0⟩

theorem sampleState_lawful : Lawful sampleConfig sampleState := by
  intro c member open' name user
  obtain rfl := mem_singleton.1 member
  obtain rfl := Option.some.inj user
  exact ⟨_, rfl, by decide, by decide, by decide⟩

/-- A command of a connected client that speaks this version of the protocol. A subscriber that speaks version 2 can not
call it. -/
def processAclCommand (config : AclConfig) (state : AclState) (c : AclClient) (resp : Nat) (command : AclCommand) :
    Checked (AclState × Unit) :=
  if c.subscribed ∧ resp = 2 then .ok (state, ()) else aclStep config { state with currentClient := c.id } command

/-- The rules of an `ACL SETUSER` take something from the user of the client to which the client is subscribed. -/
def Revokes (config : AclConfig) (state : AclState) (c : AclClient) : AclCommand → Prop
  | .setUser username argv => ¬ aclStringHasSpaces username ∧ c.user = some username ∧ c.typePubsub ∧
      ∃ args u new, (aclMergeSelectorArguments argv).1 = some args ∧ aclGetUserByName state username = some u ∧
        applyModifiers config u args = .ok (.ok new) ∧ ¬ Bare u ∧ ¬ Permitted config new c
  | _ => False

theorem setUser_clients (config : AclConfig) (state : AclState) (username : Sds) (argv : List Sds) :
    Outcome (aclSetUserCommand config state username argv) (fun _ => True) fun result => ∀ c,
      c ∈ result.1.clients ↔ c ∈ state.clients ∧ ¬ Revokes config state c (.setUser username argv) := by
  unfold aclSetUserCommand aclStringSetUser
  split_ifs with spaces
  · exact fun c => by simp [Revokes, spaces]
  cases merged : (aclMergeSelectorArguments argv).1 with
  | none => exact fun c => by simp [Revokes, merged]
  | some args =>
    dsimp only
    cases found : aclGetUserByName state username with
    | none =>
      apply Outcome.bind (outcome_any _)
      intro result _
      cases result with
      | error errno => exact fun c => by simp [Revokes, found]
      | ok tempu => exact fun c => by simp [Revokes, found, putUser_clients]
    | some u =>
      dsimp only [Option.getD_some]
      cases applied : applyModifiers config u args with
      | error fault => trivial
      | ok result =>
        cases result with
        | error errno => exact fun c => by simp [Revokes, merged, found, applied]
        | ok new =>
          intro (c : AclClient)
          change c ∈ (AclState.putUser _ _).clients ↔ _
          rw [putUser_clients, mem_kept_iff]
          simp [Revokes, merged, found, applied, spaces]

theorem freeUser_ids (state : AclState) (u : User) :
    (aclFreeUserAndKillClients state u).clients.map (·.id) = state.clients.map (·.id) := by
  rw [aclFreeUserAndKillClients, map_map]
  apply map_congr_left
  intro c member
  dsimp only [Function.comp_apply]
  split_ifs <;> rfl

theorem delUser_ids (state : AclState) (username : Sds) :
    (delUser state username).clients.map (·.id) = state.clients.map (·.id) := by
  rw [delUser]
  split
  · exact freeUser_ids _ _
  · rfl

theorem foldl_ids {A : Type} {f : AclState → A → AclState}
    (keeps : ∀ state a, (f state a).clients.map (·.id) = state.clients.map (·.id)) (list : List A) (state : AclState) :
    (list.foldl f state).clients.map (·.id) = state.clients.map (·.id) := by
  induction list generalizing state with
  | nil => rfl
  | cons a list ih => rw [foldl_cons, ih, keeps]

/-- The user of every client is in the table. -/
def Attached (state : AclState) : Prop := ∀ c ∈ state.clients, ∀ name ∈ c.user, (aclGetUserByName state name).isSome

theorem freeUsers_user (users : List User) (member : c ∈ (users.foldl aclFreeUserAndKillClients state).clients) :
    c.user = some defaultName ∨ (∀ u ∈ users, c.user ≠ some u.name) ∧ ∃ old ∈ state.clients, c.user = old.user := by
  induction users generalizing state with
  | nil => exact .inr ⟨by simp, c, member, rfl⟩
  | cons u users ih =>
    obtain standard | ⟨later, middle, member, same⟩ := ih member
    · exact .inl standard
    obtain ⟨old, known, rfl⟩ := mem_map.1 member
    by_cases own : old.user = some u.name
    · exact .inl (by rw [same, if_pos own])
    · rw [if_neg own] at same
      exact .inr ⟨forall_mem_cons.2 ⟨same ▸ own, later⟩, old, known, same⟩

theorem attached_delUser (attached : Attached state) (username : Sds) : Attached (delUser state username) := by
  unfold delUser
  cases found : state.users.find? (·.name = username) with
  | none => exact attached
  | some u =>
    obtain rfl : u.name = username := by simpa using find?_some found
    intro c member name user
    obtain standard | ⟨apart, old, known, same⟩ := freeUsers_user [u] member
    · simp [aclGetUserByName, Option.some.inj (user.symm.trans standard)]
    · have distinct : name ≠ u.name := fun equal => apart u mem_cons_self (equal ▸ user)
      have exists' := attached old known name (same ▸ user)
      unfold aclGetUserByName at exists' ⊢
      rwa [← find?_filter_name state.users distinct] at exists'

theorem attached_setUser (attached : Attached state) (username : Sds) (argv : List Sds) :
    Outcome (aclSetUserCommand config state username argv) (fun _ => True) fun result => Attached result.1 := by
  unfold aclSetUserCommand aclStringSetUser
  split_ifs
  · exact attached
  cases (aclMergeSelectorArguments argv).1 with
  | none => exact attached
  | some args =>
    apply Outcome.bind (outcome_any _)
    intro result _
    cases result with
    | error errno => exact attached
    | ok tempu =>
      intro c member name user
      rw [getUserByName_putUser]
      split_ifs
      · rfl
      · rw [putUser_clients] at member
        apply attached c ?_ name user
        split at member
        · exact (mem_kept_iff.1 member).1
        · exact member

end Redis.Acl

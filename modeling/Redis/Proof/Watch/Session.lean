import Redis.Proof.Watch.Flush

namespace Redis.Watch

variable {Key : Type}
variable {e : Nat} {key : Key} (s : Server Key) (keys : List Key)

section Clients
variable {c : Nat} {s s' : Server Key}

/-- A change of the clients' states that keeps the key space and the entries of one client. -/
theorem clients_detect {watched : List (WatchedKey Key)} {client : Nat → Client Key}
    (entries : ∀ wk ∈ watched, wk ∈ s.watched ∨ wk.expired = keyIsExpired s wk.db wk.key)
    (own : ∀ wk ∈ s.watched, wk.client = c → wk ∈ watched)
    (dirty : (s.client c).dirtyCas = true → (client c).dirtyCas = true) : Detects c s { s with watched, client } := by
  apply entries_detect
  · rfl
  · exact dirty
  · intro regular wk member flagged
    rcases entries wk member with old | fresh
    · exact regular wk old flagged
    · exact fresh.symm.trans flagged
  · exact fun _ wk member mine => .same (own wk member mine) rfl rfl

theorem setClient_detects {client : Client Key}
    (dirty : e = c → (s.client c).dirtyCas = true → client.dirtyCas = true) : Detects c s (setClient s e client) := by
  apply clients_detect
  · exact fun wk member => .inl member
  · exact fun wk member _ => member
  · intro marked
    by_cases same : c = e
    · subst same
      rw [Function.update_self]
      exact dirty rfl marked
    · rwa [Function.update_of_ne same]

theorem unwatchAllKeys_detects (other : e ≠ c) : Detects c s (unwatchAllKeys s e) := by
  apply clients_detect
  · exact fun wk member => .inl (List.mem_filter.mp member).1
  · intro wk member mine
    exact List.mem_filter.mpr ⟨member, by simpa [mine] using other.symm⟩
  · exact id

theorem discardTransaction_detects (other : e ≠ c) : Detects c s (discardTransaction s e) :=
  (setClient_detects fun same => absurd same other).trans (unwatchAllKeys_detects other)

theorem unwatchCommand_detects (other : e ≠ c) : Detects c s (unwatchCommand s e) :=
  (unwatchAllKeys_detects other).trans (setClient_detects fun same => absurd same other)

/-- The transaction of another client is none of the watchers' business. -/
theorem executing_detects {executing : Option (Nat × List (Command Key))} (other : ∀ rest, executing ≠ some (c, rest)) :
    Detects c s { s with executing } :=
  fun regular => ⟨regular, fun _ _ _ tracks => ⟨other, tracks.2⟩⟩

theorem keyIsExpired_tick {db : Nat} (milliseconds : Nat) (late : keyIsExpired s db key = true) :
    keyIsExpired { s with now := s.now + milliseconds } db key = true := by
  rw [keyIsExpired] at late ⊢
  have same : getExpire { s with now := s.now + milliseconds } db key = getExpire s db key := rfl
  rw [same]
  generalize getExpire s db key = expire at late ⊢
  cases expire with
  | none => exact late
  | some time =>
    rw [decide_eq_true_iff] at late ⊢
    exact Nat.lt_add_right milliseconds late

/-- A live key that expires while it is watched has an entry without the flag. -/
theorem tick_detects (milliseconds : Nat) : Detects c s { s with now := s.now + milliseconds } := by
  apply entries_detect
  · rfl
  · exact id
  · exact fun regular wk member flagged => keyIsExpired_tick milliseconds (regular wk member flagged)
  · intro regular wk member _
    by_cases doomed : wk.expired = false ∧ keyIsExpired { s with now := s.now + milliseconds } wk.db wk.key = true
    · exact .inl (.inr ⟨wk, member, rfl, doomed⟩)
    · have same : keyIsExpired { s with now := s.now + milliseconds } wk.db wk.key = keyIsExpired s wk.db wk.key := by
        cases flag : wk.expired with
        | true => rw [regular wk member flag, keyIsExpired_tick milliseconds (regular wk member flag)]
        | false =>
          have early : ¬keyIsExpired { s with now := s.now + milliseconds } wk.db wk.key = true :=
            fun late => doomed ⟨flag, late⟩
          rw [Bool.not_eq_true _ |>.mp early, Bool.not_eq_true _ |>.mp (mt (keyIsExpired_tick milliseconds) early)]
      refine .inr ⟨⟨wk, member, rfl, rfl, rfl⟩, by rw [live, live, same], fun unflagged => ?_⟩
      rw [← same]
      simpa [unflagged] using doomed

theorem setDirtyCas_detects : Detects c s (setDirtyCas s e) := setClient_detects fun _ _ => rfl

theorem queueMultiCommand_detects (command : Command Key) : Detects c s (queueMultiCommand s e command) := by
  rw [queueMultiCommand]
  split_ifs
  · exact .refl c s
  · exact setClient_detects fun same => by subst same; exact id

theorem flagTransaction_detects : Detects c s (flagTransaction s e) := by
  rw [flagTransaction]
  split_ifs
  · exact setClient_detects fun same => by subst same; exact id
  · exact .refl c s

theorem multiCommand_detects : Detects c s (multiCommand s e).1 := by
  rw [multiCommand]
  split_ifs
  · exact .refl c s
  · exact setClient_detects fun same => by subst same; exact id

theorem discardCommand_detects (other : (s.client e).multi = true → e ≠ c) : Detects c s (discardCommand s e).1 := by
  rw [discardCommand]
  split_ifs with multi
  · exact discardTransaction_detects (other multi)
  · exact .refl c s

theorem execCommand_detects (other : (s.client e).multi = true → e ≠ c) : Detects c s (execCommand s e).1 := by
  rw [execCommand]
  by_cases multi : (s.client e).multi = true
  · rw [multi, Bool.not_true, if_neg Bool.false_ne_true]
    dsimp only
    have marked : Detects c s (if isWatchedKeyExpired s e then setDirtyCas s e else s) := by
      split_ifs
      · exact setDirtyCas_detects
      · exact .refl c s
    apply marked.trans
    generalize (if isWatchedKeyExpired s e then setDirtyCas s e else s) = s'
    split_ifs
    · exact discardTransaction_detects (other multi)
    · exact discardTransaction_detects (other multi)
    · exact (unwatchAllKeys_detects (other multi)).trans
        (executing_detects fun _ same => other multi (congrArg Prod.fst (Option.some.inj same)))
  · rw [if_pos (by simpa using multi)]
    exact .refl c s
end Clients

variable [DecidableEq Key]

section Watch
variable {c e : Nat}

theorem watchForKey_detects (key : Key) : Detects c s (watchForKey s e key) := by
  rw [watchForKey]
  split_ifs
  · exact .refl c s
  · apply clients_detect
    · intro wk member
      rcases List.mem_append.mp member with old | new
      · exact .inl old
      · rw [List.mem_singleton.mp new]
        exact .inr rfl
    · exact fun wk member _ => List.mem_append_left _ member
    · exact id

theorem foldl_watchForKey_detects (s : Server Key) :
    Detects c s (keys.foldl (fun s key => watchForKey s e key) s) := by
  induction keys generalizing s with
  | nil => exact .refl c s
  | cons key keys ih => exact (watchForKey_detects s key).trans (ih _)

theorem watchCommand_detects : Detects c s (watchCommand s e keys).1 := by
  rw [watchCommand]
  split_ifs
  · exact .refl c s
  · exact .refl c s
  · exact foldl_watchForKey_detects keys s

@[simp] theorem watchForKey_client (key : Key) : (watchForKey s c key).client = s.client := by
  rw [watchForKey]
  split_ifs <;> rfl

@[simp] theorem watchForKey_executing (key : Key) : (watchForKey s c key).executing = s.executing := by
  rw [watchForKey]
  split_ifs <;> rfl

theorem watchForKey_watches (key : Key) : Watches (watchForKey s c key) c (s.client c).db key := by
  rw [watchForKey]
  split_ifs with already
  · obtain ⟨wk, member, same⟩ := List.any_eq_true.mp already
    exact ⟨wk, member, of_decide_eq_true same⟩
  · exact ⟨_, List.mem_append_right _ (List.mem_singleton_self _), rfl, rfl, rfl⟩

theorem Watches.watchForKey {s : Server Key} {db : Nat} (watches : Watches s c db key) (other : Key) :
    Watches (watchForKey s e other) c db key := by
  rw [Watch.watchForKey]
  split_ifs
  · exact watches
  · obtain ⟨wk, member, same⟩ := watches
    exact ⟨wk, List.mem_append_left _ member, same⟩

theorem foldl_watchForKey_frame (s : Server Key) :
    (keys.foldl (fun s key => watchForKey s c key) s).client = s.client ∧
      (keys.foldl (fun s key => watchForKey s c key) s).executing = s.executing := by
  induction keys generalizing s with
  | nil => exact ⟨rfl, rfl⟩
  | cons key keys ih =>
    have next := ih (watchForKey s c key)
    rwa [watchForKey_client, watchForKey_executing] at next

theorem watchCommand_frame :
    (watchCommand s c keys).1.client = s.client ∧ (watchCommand s c keys).1.executing = s.executing := by
  rw [watchCommand]
  split_ifs
  · exact ⟨rfl, rfl⟩
  · exact ⟨rfl, rfl⟩
  · exact foldl_watchForKey_frame keys s

theorem Watches.foldl_watchForKey {s : Server Key} {db : Nat} (watches : Watches s c db key) (keys : List Key) :
    Watches (keys.foldl (fun s key => Watch.watchForKey s e key) s) c db key := by
  induction keys generalizing s with
  | nil => exact watches
  | cons other keys ih => exact ih (watches.watchForKey other)

theorem foldl_watchForKey_watches (s : Server Key) (member : key ∈ keys) :
    Watches (keys.foldl (fun s key => watchForKey s c key) s) c (s.client c).db key := by
  induction keys generalizing s with
  | nil => cases member
  | cons first keys ih =>
    rcases List.mem_cons.mp member with rfl | later
    · exact (watchForKey_watches s key).foldl_watchForKey keys
    · have next := ih (watchForKey s c first) later
      rwa [watchForKey_client] at next

/-- After an accepted `WATCH` the client tracks its keys as they are now. -/
theorem watchCommand_tracks {s : Server Key} {keys : List Key} (accepted : (watchCommand s c keys).2 = .ok)
    (quiet : s.executing = none) (member : key ∈ keys) :
    Tracks c (s.client c).db key (live (watchCommand s c keys).1 (s.client c).db key) (watchCommand s c keys).1 := by
  constructor
  · rw [(watchCommand_frame s keys).2, quiet]
    simp
  · rw [watchCommand] at accepted ⊢
    split_ifs at accepted ⊢ with multi dirty
    · exact .inl (.inl dirty)
    · exact .inr ⟨foldl_watchForKey_watches keys s member, rfl⟩
end Watch

/-- The command leaves no watched key in a new state without reaching the clients that watch it. -/
def Command.Signalled (s : Server Key) (db : Nat) : Command Key → Prop
  | .restore key ttl absttl replace valid =>
    replace = true → valid = true → restoreExpired s ttl absttl = false →
      ∀ wk ∈ s.watched, wk.db = db → wk.key = key → wk.expired = false
  | .streamMetadata key effect =>
    effect = true → live s db key ≠ none → ∀ wk ∈ s.watched, ¬(wk.db = db ∧ wk.key = key)
  | .swapdb first second =>
    ∀ wk ∈ s.watched, wk.expired = true →
      (wk.db = first → live s second wk.key = none) ∧ (wk.db = second → live s first wk.key = none)
  | _ => True

instance (s : Server Key) (db : Nat) (command : Command Key) : Decidable (command.Signalled s db) := by
  cases command <;> unfold Command.Signalled <;> infer_instance

theorem call_detects {c e : Nat} {s : Server Key} {command : Command Key}
    (signalled : command.Signalled s (s.client e).db) (kept : command = .unwatch → e ≠ c) :
    Detects c s (call s e command) := by
  cases command with
  | read key => exact expireIfNeeded_detects
  | set key nx xx keepTtl expire => exact setGenericCommand_detects s _ key nx xx keepTtl expire
  | update key effect => exact updateCommand_detects s _ key effect
  | storeEmpty key => exact deleteAndSignal_detects
  | del key => exact expireIfNeeded_detects.trans deleteAndSignal_detects
  | expire key time flags => exact expireGenericCommand_detects s _ key time flags
  | persist key => exact persistCommand_detects s _ key
  | restore key ttl absttl replace valid => exact restoreCommand_detects s _ key ttl absttl replace valid signalled
  | rename source target nx => exact renameGenericCommand_detects s _ source target nx
  | move key target => exact moveCommand_detects s _ key target
  | copy source target targetDb replace => exact copyCommand_detects s _ source target targetDb replace
  | streamMetadata key effect => exact streamMetadataCommand_detects s _ key effect signalled
  | flushdb => exact emptyDb_detects s _
  | flushall => exact emptyAll_detects s
  | swapdb first second => exact dbSwapDatabases_detects s first second signalled
  | select target =>
    rw [call]
    split_ifs
    · exact setClient_detects fun same => by subst same; exact id
    · exact .refl c s
  | unwatch => exact unwatchCommand_detects (kept rfl)

/-- The command that the event executes, if it executes one, is signalled. -/
def Event.Signalled (s : Server Key) (event : Event Key) : Prop :=
  match s.executing, event with
  | none, .command c called => (s.client c).multi = false → called.Signalled s (s.client c).db
  | some (c, next :: _), .execNext => next.Signalled s (s.client c).db
  | _, _ => True

instance (s : Server Key) (event : Event Key) : Decidable (event.Signalled s) := by
  unfold Event.Signalled
  split <;> infer_instance

/-- The client gives up its watched keys: an `EXEC` or a `DISCARD` of a transaction or an `UNWATCH` outside of one. -/
def Releases (c : Nat) (s : Server Key) (event : Event Key) : Prop :=
  s.executing = none ∧ (((event = .exec c ∨ event = .discard c) ∧ (s.client c).multi = true) ∨
      (event = .command c .unwatch ∧ (s.client c).multi = false))

instance (c : Nat) (s : Server Key) (event : Event Key) : Decidable (Releases c s event) :=
  inferInstanceAs (Decidable (_ ∧ _))

theorem serve_detects {c : Nat} {s : Server Key} {event : Event Key} (quiet : s.executing = none)
    (signalled : event.Signalled s) (kept : ¬Releases c s event) : Detects c s (serve s event).1 := by
  cases event with
  | tick milliseconds => exact tick_detects milliseconds
  | activeExpire db key => exact expireIfNeeded_detects
  | evict db key => exact deleteAndSignal_detects
  | watch e keys => exact watchCommand_detects s keys
  | multi e => exact multiCommand_detects
  | discard e =>
    apply discardCommand_detects
    intro multi same
    subst same
    exact kept ⟨quiet, .inl ⟨.inr rfl, multi⟩⟩
  | exec e =>
    apply execCommand_detects
    intro multi same
    subst same
    exact kept ⟨quiet, .inl ⟨.inl rfl, multi⟩⟩
  | command e command =>
    simp only [Event.Signalled, quiet] at signalled
    rw [serve, processCommand]
    split_ifs with multi
    · exact queueMultiCommand_detects command
    · apply call_detects (signalled (by simpa using multi))
      intro unwatch same
      subst unwatch same
      exact kept ⟨quiet, .inr ⟨rfl, by simpa using multi⟩⟩
  | reject e => exact flagTransaction_detects
  | execNext => exact .refl c s

theorem execNext_detects {c e : Nat} {s : Server Key} {rest : List (Command Key)} (busy : s.executing = some (e, rest))
    (signalled : Event.Signalled s .execNext) (other : e ≠ c) : Detects c s (execNext s) := by
  simp only [Event.Signalled, busy] at signalled
  rw [execNext, busy]
  cases rest with
  | nil => exact (discardTransaction_detects other).trans (executing_detects (by simp))
  | cons command rest =>
    exact (call_detects signalled fun _ => other).trans
      (executing_detects fun _ same => other (congrArg Prod.fst (Option.some.inj same)))

end Redis.Watch

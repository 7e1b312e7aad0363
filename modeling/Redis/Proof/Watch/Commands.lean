import Redis.Proof.Watch.Touch

namespace Redis.Watch

variable {Key : Type} [DecidableEq Key]

section Frames
variable (s : Server Key) (db : Nat) (key : Key)

theorem signalModifiedKey_eq : ∃ watched client, signalModifiedKey s db key = { s with watched, client } :=
  ⟨_, _, touchClients_eq db key (entriesOf s db key) s⟩

@[simp] theorem signalModifiedKey_dict : (signalModifiedKey s db key).dict = s.dict := by
  obtain ⟨watched, client, same⟩ := signalModifiedKey_eq s db key
  rw [same]

@[simp] theorem signalModifiedKey_now : (signalModifiedKey s db key).now = s.now := by
  obtain ⟨watched, client, same⟩ := signalModifiedKey_eq s db key
  rw [same]

theorem setEntry_changed (entry : Option Entry) : ChangedAt db key s (setEntry s db key entry) where
  now := rfl
  watched := rfl
  client := rfl
  executing := rfl
  elsewhere db' key' other := by
    rw [setEntry]
    dsimp only
    by_cases sameDb : db' = db
    · subst sameDb
      rw [Function.update_self, Function.update_of_ne fun same => other ⟨rfl, same⟩]
    · rw [Function.update_of_ne sameDb]

theorem modifyEntry_changed (expire : Option Nat) : ChangedAt db key s (modifyEntry s db key expire) :=
  { setEntry_changed s db key (some ⟨s.modifications, expire⟩) with }

theorem removeExpire_changed : ChangedAt db key s (removeExpire s db key) := by
  rw [removeExpire]
  split_ifs
  · exact modifyEntry_changed s db key none
  · exact .refl db key s

theorem dbDelete_changed : ChangedAt db key s (dbDelete s db key) := setEntry_changed s db key none

theorem dbDelete_dict : (dbDelete s db key).dict db key = none := by
  rw [dbDelete, setEntry]
  dsimp only
  rw [Function.update_self, Function.update_self]
end Frames

section Signals
variable {c db : Nat} {key : Key} {s s' : Server Key}

omit [DecidableEq Key] in
theorem unflagged_of_fresh (regular : Regular s) (fresh : keyIsExpired s db key = false) :
    ∀ wk ∈ s.watched, wk.db = db → wk.key = key → wk.expired = false := by
  intro wk member sameDb sameKey
  by_contra flagged
  have expired := regular wk member (by simpa using flagged)
  rw [sameDb, sameKey, fresh] at expired
  cases expired

theorem write_detects (fresh : keyIsExpired s db key = false) (changed : ChangedAt db key s s') :
    Detects c s (signalModifiedKey s' db key) := by
  intro regular
  exact touchWatchedKey_detects changed (.inr (unflagged_of_fresh regular fresh)) regular

theorem write_unwatched (regular : Regular s) (fresh : keyIsExpired s db key = false)
    (changed : ChangedAt db key s s') :
    ∀ wk ∈ (signalModifiedKey s' db key).watched, ¬(wk.db = db ∧ wk.key = key) := by
  have unflagged : ∀ wk ∈ entriesOf s' db key, wk.expired = false := by
    intro wk member
    obtain ⟨inside, sameDb, sameKey⟩ := mem_entriesOf.mp member
    exact unflagged_of_fresh regular fresh wk (changed.watched ▸ inside) sameDb sameKey
  intro wk member on
  rw [signalModifiedKey, touchWatchedKey_eq (.inr unflagged)] at member
  obtain ⟨old, inside, rfl, missed⟩ := (mem_touched s').mp member
  obtain ⟨expired, same⟩ := clearedBy_eq (entriesOf s' db key) old
  rw [same] at on
  have entry := mem_entriesOf.mpr ⟨inside, on⟩
  rw [hit_of_mem entry (unflagged old entry)] at missed
  cases missed

theorem delete_detects (changed : ChangedAt db key s s') (gone : s'.dict db key = none) :
    Detects c s (signalModifiedKey s' db key) := touchWatchedKey_detects changed (.inl gone)

omit [DecidableEq Key] in
theorem unwatched_detects (unwatched : ∀ wk ∈ s.watched, ¬(wk.db = db ∧ wk.key = key))
    (changed : ChangedAt db key s s') : Detects c s s' := by
  have same : ∀ wk ∈ s.watched, s'.dict wk.db wk.key = s.dict wk.db wk.key :=
    fun wk member => changed.elsewhere _ _ (unwatched wk member)
  apply entries_detect changed.executing
  · rw [changed.client]
    exact id
  · intro regular wk member flagged
    rw [changed.watched] at member
    exact (keyIsExpired_congr changed.now (same wk member)).trans (regular wk member flagged)
  · intro _ wk member _
    exact .same (changed.watched ▸ member) changed.now (same wk member)

theorem expireIfNeeded_detects : Detects c s (expireIfNeeded s db key) := by
  rw [expireIfNeeded]
  split_ifs
  · exact delete_detects (dbDelete_changed s db key) (dbDelete_dict s db key)
  · exact .refl c s

theorem keyIsExpired_expireIfNeeded : keyIsExpired (expireIfNeeded s db key) db key = false := by
  rw [expireIfNeeded]
  split_ifs with late
  · rw [keyIsExpired, getExpire, deleteExpiredKeyAndPropagate, signalModifiedKey_dict, dbDelete_dict]
    rfl
  · simpa using late

/-- What holds of every server on which the key is not expired holds after a lookup of the key. -/
@[elab_as_elim]
theorem expireIfNeeded_fresh {motive : Server Key → Prop} (s : Server Key) (db : Nat) (key : Key)
    (rest : ∀ s', keyIsExpired s' db key = false → motive s') : motive (expireIfNeeded s db key) :=
  rest _ keyIsExpired_expireIfNeeded

theorem deleteAndSignal_detects : Detects c s (deleteAndSignal s db key) := by
  rw [deleteAndSignal]
  split_ifs
  · exact delete_detects (dbDelete_changed s db key) (dbDelete_dict s db key)
  · exact .refl c s
end Signals

section SingleKey
variable {c : Nat} (s : Server Key) (db : Nat) (key : Key)

theorem setKey_changed (found keepTtl : Bool) :
    ∃ s', setKey s db key found keepTtl = signalModifiedKey s' db key ∧ ChangedAt db key s s' := by
  refine ⟨_, rfl, ?_⟩
  have written : ChangedAt db key s (if found then dbSetValue s db key else dbAdd s db key) := by
    split_ifs
    · exact modifyEntry_changed s db key _
    · exact modifyEntry_changed s db key _
  generalize (if found then dbSetValue s db key else dbAdd s db key) = s' at written ⊢
  split_ifs
  · exact written
  · exact written.trans (removeExpire_changed s' db key)

theorem setGenericCommand_detects (nx xx keepTtl : Bool) (expire : Option Nat) :
    Detects c s (setGenericCommand s db key nx xx keepTtl expire) := by
  rw [setGenericCommand, lookupKey]
  dsimp only
  apply expireIfNeeded_detects.trans
  refine expireIfNeeded_fresh s db key fun s' fresh => ?_
  split_ifs
  · exact .refl c s'
  · obtain ⟨next, same, changed⟩ := setKey_changed s' db key (s'.dict db key).isSome (keepTtl || expire.isSome)
    rw [same]
    cases expire with
    | none => exact write_detects fresh changed
    | some milliseconds =>
      intro regular
      exact (write_detects fresh changed).trans (unwatched_detects (write_unwatched regular fresh changed)
        (modifyEntry_changed (signalModifiedKey next db key) db key (some milliseconds))) regular

theorem updateCommand_detects (effect : Effect) : Detects c s (updateCommand s db key effect) := by
  rw [updateCommand, lookupKey]
  apply expireIfNeeded_detects.trans
  refine expireIfNeeded_fresh s db key fun s' fresh => ?_
  cases effect with
  | unchanged => exact .refl c s'
  | write =>
    apply write_detects fresh
    split_ifs
    · exact modifyEntry_changed s' db key _
    · exact modifyEntry_changed s' db key _
  | remove => exact deleteAndSignal_detects

theorem expireGenericCommand_detects (when : Int) (flags : ExpireFlags) :
    Detects c s (expireGenericCommand s db key when flags) := by
  rw [expireGenericCommand, lookupKey]
  dsimp only
  apply expireIfNeeded_detects.trans
  refine expireIfNeeded_fresh s db key fun s' fresh => ?_
  split_ifs
  · exact .refl c s'
  · exact .refl c s'
  · exact delete_detects (dbDelete_changed s' db key) (dbDelete_dict s' db key)
  · exact write_detects fresh (modifyEntry_changed s' db key _)

theorem persistCommand_detects : Detects c s (persistCommand s db key) := by
  rw [persistCommand, lookupKey]
  dsimp only
  apply expireIfNeeded_detects.trans
  refine expireIfNeeded_fresh s db key fun s' fresh => ?_
  split_ifs
  · exact write_detects fresh (removeExpire_changed s' db key)
  · exact .refl c s'

theorem dbDelete_of_absent {s : Server Key} {db : Nat} {key : Key} (absent : s.dict db key = none) :
    dbDelete s db key = s := by
  rw [dbDelete, setEntry, ← absent, Function.update_eq_self, Function.update_eq_self]

/-- A key that is added with an expire, after the old key was deleted or not. -/
theorem restored_changed {s s' : Server Key} (changed : ChangedAt db key s s') (time : Nat) :
    ChangedAt db key s (if time ≠ 0 then setExpire (dbAdd s' db key) db key time else dbAdd s' db key) := by
  have added := changed.trans (modifyEntry_changed s' db key none)
  split_ifs
  · exact added.trans (modifyEntry_changed _ db key (some time))
  · exact added

/-- The time to live that `RESTORE` is given is over. -/
def restoreExpired (s : Server Key) (ttl : Nat) (absttl : Bool) : Bool :=
  let ttl := if ttl ≠ 0 ∧ !absttl then ttl + s.now else ttl
  ttl ≠ 0 ∧ checkAlreadyExpired s ttl

/-- A restored key is noticed unless a flagged entry stops the loop. -/
theorem restoreKey_detects (ttl : Nat) (absttl replace : Bool) (free : restoreExpired s ttl absttl = false →
      ∀ wk ∈ s.watched, wk.db = db → wk.key = key → wk.expired = false) :
    Detects c s (restoreKey s db key ttl absttl replace) := by
  rw [restoreExpired, decide_eq_false_iff_not] at free
  cases replace with
  | false =>
    simp only [restoreKey, Bool.false_eq_true, if_false]
    generalize (if ttl ≠ 0 ∧ (!absttl) = true then ttl + s.now else ttl) = time at free ⊢
    by_cases late : time ≠ 0 ∧ checkAlreadyExpired s time = true
    · rw [if_pos late]
      exact .refl c s
    · rw [if_neg late]
      exact touchWatchedKey_detects (restored_changed db key (.refl db key s) time) (.inr (free late))
  | true =>
    have now : (dbDelete s db key).now = s.now := rfl
    have same : ∀ time : Int, checkAlreadyExpired (dbDelete s db key) time = checkAlreadyExpired s time := fun _ => rfl
    simp only [restoreKey, Bool.true_and, if_true, now, same]
    generalize (if ttl ≠ 0 ∧ (!absttl) = true then ttl + s.now else ttl) = time at free ⊢
    by_cases late : time ≠ 0 ∧ checkAlreadyExpired s time = true
    · rw [if_pos late]
      by_cases present : (s.dict db key).isSome = true
      · rw [if_pos present]
        exact delete_detects (dbDelete_changed s db key) (dbDelete_dict s db key)
      · rw [if_neg present, dbDelete_of_absent (by simpa using present)]
        exact .refl c s
    · rw [if_neg late]
      exact touchWatchedKey_detects (restored_changed db key (dbDelete_changed s db key) time) (.inr (free late))

theorem restoreCommand_detects (ttl : Nat) (absttl replace valid : Bool)
    (free : replace = true → valid = true → restoreExpired s ttl absttl = false → ∀ wk ∈ s.watched, wk.db = db → wk.key = key → wk.expired = false) :
    Detects c s (restoreCommand s db key ttl absttl replace valid) := by
  rw [restoreCommand]
  cases replace with
  | true =>
    rw [if_pos rfl]
    split_ifs with readable
    · exact restoreKey_detects s db key ttl absttl true (free rfl readable)
    · exact .refl c s
  | false =>
    rw [if_neg Bool.false_ne_true, lookupKey]
    dsimp only
    apply expireIfNeeded_detects.trans
    refine expireIfNeeded_fresh s db key fun s' fresh => ?_
    split_ifs
    · exact .refl c s'
    · intro regular
      exact restoreKey_detects s' db key ttl absttl false (fun _ => unflagged_of_fresh regular fresh) regular

/-- The entries of a key after its expiration come from entries of the key before. -/
theorem unwatched_expireIfNeeded {s : Server Key} {db : Nat} {key : Key}
    (unwatched : ∀ wk ∈ s.watched, ¬(wk.db = db ∧ wk.key = key)) :
    ∀ wk ∈ (expireIfNeeded s db key).watched, ¬(wk.db = db ∧ wk.key = key) := by
  rw [expireIfNeeded]
  split_ifs
  · intro wk member
    rw [deleteExpiredKeyAndPropagate, signalModifiedKey, touchWatchedKey_eq (.inl (dbDelete_dict s db key))] at member
    obtain ⟨old, inside, rfl, -⟩ := (mem_touched (dbDelete s db key)).mp member
    obtain ⟨expired, same⟩ := clearedBy_eq (entriesOf (dbDelete s db key) db key) old
    rw [same]
    exact unwatched old inside
  · exact unwatched

theorem expireIfNeeded_dict : (expireIfNeeded s db key).dict db key = live s db key := by
  rw [expireIfNeeded, live]
  split_ifs
  · rw [deleteExpiredKeyAndPropagate, signalModifiedKey_dict, dbDelete_dict]
  · rfl

theorem streamMetadataCommand_detects (effect : Bool)
    (unwatched : effect = true → live s db key ≠ none → ∀ wk ∈ s.watched, ¬(wk.db = db ∧ wk.key = key)) :
    Detects c s (streamMetadataCommand s db key effect) := by
  rw [streamMetadataCommand]
  dsimp only
  apply expireIfNeeded_detects.trans
  split_ifs with changes
  · obtain ⟨found, active⟩ := Bool.and_eq_true_iff.mp changes
    have present : live s db key ≠ none := by
      rw [← expireIfNeeded_dict]
      exact Option.isSome_iff_ne_none.mp found
    exact unwatched_detects (unwatched_expireIfNeeded (unwatched active present)) (modifyEntry_changed _ db key _)
  · exact .refl c (expireIfNeeded s db key)
end SingleKey

section TwoKeys
variable {c db : Nat} {key : Key}

/-- The same deletion keeps two key spaces that differ in one key that way. -/
theorem ChangedAt.delete {s s' : Server Key} (changed : ChangedAt db key s s') (db' : Nat) (key' : Key) :
    ChangedAt db key (dbDelete s db' key') (dbDelete s' db' key') where
  now := changed.now
  watched := changed.watched
  client := changed.client
  executing := changed.executing
  elsewhere db'' key'' other := by
    by_cases deleted : db'' = db' ∧ key'' = key'
    · rw [deleted.1, deleted.2, dbDelete_dict, dbDelete_dict]
    · rw [(dbDelete_changed s' db' key').elsewhere _ _ deleted, (dbDelete_changed s db' key').elsewhere _ _ deleted,
        changed.elsewhere _ _ other]

/-- Signals for another key do not depend on the changed key. -/
theorem ChangedAt.signal {s s' : Server Key} (changed : ChangedAt db key s s') {db' : Nat} {key' : Key}
    (other : ¬(db' = db ∧ key' = key)) :
    ChangedAt db key (signalModifiedKey s db' key') (signalModifiedKey s' db' key') := by
  have same := changed.elsewhere db' key' other
  have entries : entriesOf s' db' key' = entriesOf s db' key' := by rw [entriesOf, entriesOf, changed.watched]
  rw [signalModifiedKey, signalModifiedKey, touchWatchedKey, touchWatchedKey, ← entriesOf, ← entriesOf, entries,
    touchClients_eq, touchClients_eq, same]
  refine ⟨changed.now, ?_, ?_, changed.executing, changed.elsewhere⟩
  · simp only [touched, changed.watched]
  · simp only [touched, changed.client]

/-- A key is deleted and another one is written before both are signalled. -/
theorem moved_detects {s s' : Server Key} {source : Nat} {old : Key} (other : ¬(source = db ∧ old = key))
    (fresh : keyIsExpired s db key = false) (changed : ChangedAt db key s s') :
    Detects c s (signalModifiedKey (signalModifiedKey (dbDelete s' source old) source old) db key) := by
  have deleted : Detects c s (signalModifiedKey (dbDelete s source old) source old) :=
    delete_detects (dbDelete_changed s source old) (dbDelete_dict s source old)
  apply deleted.trans
  apply write_detects ?_ ((changed.delete source old).signal other)
  rw [← fresh]
  apply keyIsExpired_congr
  · rw [signalModifiedKey_now]
    rfl
  · rw [signalModifiedKey_dict]
    exact (dbDelete_changed s source old).elsewhere _ _ fun same => other ⟨same.1.symm, same.2.symm⟩

theorem addWithExpire_changed (s : Server Key) (db : Nat) (key : Key) (expire : Option Nat) :
    ChangedAt db key s (addWithExpire s db key expire) := by
  have added := modifyEntry_changed s db key none
  cases expire with
  | none => exact added
  | some when => exact added.trans (modifyEntry_changed _ db key (some when))

/-- The target of a copy or a rename is deleted first when it is occupied. -/
theorem replaced_changed (s : Server Key) (db : Nat) (key : Key) (occupied : Bool) (expire : Option Nat) :
    ChangedAt db key s (addWithExpire (if occupied then dbDelete s db key else s) db key expire) := by
  cases occupied with
  | true => exact (dbDelete_changed s db key).trans (addWithExpire_changed _ db key expire)
  | false => exact addWithExpire_changed s db key expire

variable (s : Server Key)

theorem renameGenericCommand_detects (db : Nat) (source target : Key) (nx : Bool) :
    Detects c s (renameGenericCommand s db source target nx) := by
  rw [renameGenericCommand, lookupKey]
  dsimp only
  apply expireIfNeeded_detects.trans
  generalize expireIfNeeded s db source = s'
  by_cases stop : (!(s'.dict db source).isSome || decide (source = target)) = true
  · rw [if_pos stop]
    exact .refl c s'
  · rw [if_neg stop, lookupKey]
    apply expireIfNeeded_detects.trans
    refine expireIfNeeded_fresh s' db target fun s'' fresh => ?_
    have different : source ≠ target := by
      intro same
      exact stop (by rw [decide_eq_true same, Bool.or_true])
    by_cases refused : ((s''.dict db target).isSome && nx) = true
    · rw [if_pos refused]
      exact .refl c s''
    · rw [if_neg refused]
      exact moved_detects (fun same => different same.2) fresh (replaced_changed s'' db target _ _)

theorem moveCommand_detects (db : Nat) (key : Key) (target : Nat) : Detects c s (moveCommand s db key target) := by
  rw [moveCommand]
  by_cases refused : s.dbnum ≤ target ∨ target = db
  · rw [if_pos refused]
    exact .refl c s
  · rw [if_neg refused, lookupKey]
    dsimp only
    apply expireIfNeeded_detects.trans
    generalize expireIfNeeded s db key = s'
    by_cases absent : (!(s'.dict db key).isSome) = true
    · rw [if_pos absent]
      exact .refl c s'
    · rw [if_neg absent, lookupKey]
      apply expireIfNeeded_detects.trans
      refine expireIfNeeded_fresh s' target key fun s'' fresh => ?_
      by_cases occupied : (s''.dict target key).isSome = true
      · rw [if_pos occupied]
        exact .refl c s''
      · rw [if_neg occupied]
        exact moved_detects (fun same => refused (.inr same.1.symm)) fresh (addWithExpire_changed s'' target key _)

theorem copyCommand_detects (db : Nat) (source target : Key) (targetDb : Nat) (replace : Bool) :
    Detects c s (copyCommand s db source target targetDb replace) := by
  rw [copyCommand]
  by_cases refused : s.dbnum ≤ targetDb ∨ (targetDb = db ∧ source = target)
  · rw [if_pos refused]
    exact .refl c s
  · rw [if_neg refused, lookupKey]
    dsimp only
    apply expireIfNeeded_detects.trans
    generalize expireIfNeeded s db source = s'
    by_cases absent : (!(s'.dict db source).isSome) = true
    · rw [if_pos absent]
      exact .refl c s'
    · rw [if_neg absent, lookupKey]
      apply expireIfNeeded_detects.trans
      refine expireIfNeeded_fresh s' targetDb target fun s'' fresh => ?_
      by_cases occupied : ((s''.dict targetDb target).isSome && !replace) = true
      · rw [if_pos occupied]
        exact .refl c s''
      · rw [if_neg occupied]
        exact write_detects fresh (replaced_changed s'' targetDb target _ _)
end TwoKeys
end Redis.Watch

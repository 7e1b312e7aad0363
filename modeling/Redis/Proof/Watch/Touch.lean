import Mathlib.Data.List.TakeWhile
import Redis.Construction.Watch

namespace Redis.Watch
open List
variable {Key : Type}
variable (c : Nat) (s : Server Key)

/-- What a reader of the key sees. -/
def live (db : Nat) (key : Key) : Option Entry := if keyIsExpired s db key then none else s.dict db key

/-- An entry is flagged only for a key that is still expired. -/
def Regular : Prop := ∀ wk ∈ s.watched, wk.expired = true → keyIsExpired s wk.db wk.key = true

/-- The next `EXEC` of the client aborts. -/
def Doomed (c : Nat) : Prop :=
  (s.client c).dirtyCas = true ∨
    ∃ wk ∈ s.watched, wk.client = c ∧ wk.expired = false ∧ keyIsExpired s wk.db wk.key = true

def Watches (c db : Nat) (key : Key) : Prop := ∃ wk ∈ s.watched, wk.client = c ∧ wk.db = db ∧ wk.key = key

/-- The client's transaction is not executed, and unless the client is doomed, it watches the key and the key is as it
was. -/
def Tracks (c db : Nat) (key : Key) (base : Option Entry) (s : Server Key) : Prop :=
  (∀ rest, s.executing ≠ some (c, rest)) ∧ (Doomed s c ∨ (Watches s c db key ∧ live s db key = base))

/-- No change that a client has to notice is lost. -/
def Detects (s s' : Server Key) : Prop :=
  Regular s → Regular s' ∧ ∀ db key base, Tracks c db key base s → Tracks c db key base s'

theorem Detects.refl : Detects c s s := fun regular => ⟨regular, fun _ _ _ tracks => tracks⟩

theorem Detects.trans {c : Nat} {s s' s'' : Server Key} (first : Detects c s s') (second : Detects c s' s'') :
    Detects c s s'' := by
  intro regular
  obtain ⟨regular', tracks⟩ := first regular
  obtain ⟨regular'', tracks'⟩ := second regular'
  exact ⟨regular'', fun db key base held => tracks' db key base (tracks db key base held)⟩

theorem keyIsExpired_congr {s s' : Server Key} {db db' : Nat} {key : Key} (now : s'.now = s.now)
    (same : s'.dict db' key = s.dict db key) : keyIsExpired s' db' key = keyIsExpired s db key := by
  rw [keyIsExpired, keyIsExpired, getExpire, getExpire, same, now]

theorem live_congr {s s' : Server Key} {db db' : Nat} {key : Key} (now : s'.now = s.now)
    (same : s'.dict db' key = s.dict db key) : live s' db' key = live s db key := by
  rw [live, live, keyIsExpired_congr now same, same]

theorem live_eq_none {s : Server Key} {db : Nat} {key : Key} (absent : s.dict db key = none) :
    live s db key = none := by
  rw [live, absent, ite_self]

theorem live_of_expired {s : Server Key} {db : Nat} {key : Key} (expired : keyIsExpired s db key = true) :
    live s db key = none := if_pos expired

section Entries
variable {c : Nat} {s s' : Server Key} {wk : WatchedKey Key}

/-- The client of an entry is doomed, or it still watches the key, which is as it was and had not expired unnoticed. -/
def Kept (s s' : Server Key) (wk : WatchedKey Key) : Prop :=
  Doomed s' wk.client ∨ (Watches s' wk.client wk.db wk.key ∧ live s' wk.db wk.key = live s wk.db wk.key ∧
    (wk.expired = false → keyIsExpired s wk.db wk.key = false))

theorem Kept.same (member : wk ∈ s'.watched) (now : s'.now = s.now)
    (dict : s'.dict wk.db wk.key = s.dict wk.db wk.key) : Kept s s' wk := by
  by_cases late : wk.expired = false ∧ keyIsExpired s wk.db wk.key = true
  · exact .inl (.inr ⟨wk, member, rfl, late.1, (keyIsExpired_congr now dict).trans late.2⟩)
  · exact .inr ⟨⟨wk, member, rfl, rfl, rfl⟩, live_congr now dict, fun unflagged => by simpa [unflagged] using late⟩

theorem entries_detect (executing : s'.executing = s.executing)
    (dirty : (s.client c).dirtyCas = true → (s'.client c).dirtyCas = true) (regular : Regular s → Regular s')
    (kept : Regular s → ∀ wk ∈ s.watched, wk.client = c → Kept s s' wk) : Detects c s s' := by
  intro before
  refine ⟨regular before, fun db key base tracks => ?_⟩
  obtain ⟨idle, (marked | ⟨wk, member, rfl, unflagged, late⟩) | ⟨⟨wk, member, rfl, rfl, rfl⟩, same⟩⟩ := tracks
  all_goals refine ⟨fun rest busy => idle rest (executing.symm.trans busy), ?_⟩
  · exact .inl (.inl (dirty marked))
  · rcases kept before wk member rfl with doomed | ⟨-, -, early⟩
    · exact .inl doomed
    · rw [early unflagged] at late
      cases late
  · exact (kept before wk member rfl).imp_right fun ⟨watches, seen, _⟩ => ⟨watches, seen.trans same⟩
end Entries

section Loop
variable [DecidableEq Key]

/-- The loop stops early at a flagged entry of a key that is still there. -/
def visited (deleted : Bool) (todo : List (WatchedKey Key)) : List (WatchedKey Key) :=
  if deleted then todo else todo.takeWhile fun wk => !wk.expired

/-- An entry after the visits. -/
def clearedBy (todo : List (WatchedKey Key)) (wk : WatchedKey Key) : WatchedKey Key :=
  if wk.expired = true ∧ wk ∈ todo then { wk with expired := false } else wk

/-- The client has an entry among the visited ones that is not flagged. -/
def hit (todo : List (WatchedKey Key)) (c : Nat) : Bool := todo.any fun wk => !wk.expired && wk.client = c

/-- The visits clear the flagged entries, and make the clients of the others dirty and drop their entries. -/
def touched (todo : List (WatchedKey Key)) (s : Server Key) : Server Key :=
  { s with
    watched := (s.watched.map (clearedBy todo)).filter fun wk => !hit todo wk.client
    client := fun c => if hit todo c then { s.client c with dirtyCas := true } else s.client c }

variable {db : Nat} {key : Key} {todo : List (WatchedKey Key)} {wk : WatchedKey Key}

theorem clearedBy_eq (todo : List (WatchedKey Key)) (wk : WatchedKey Key) :
    ∃ expired, clearedBy todo wk = { wk with expired } := by
  rw [clearedBy]
  split_ifs
  · exact ⟨false, rfl⟩
  · exact ⟨wk.expired, rfl⟩

theorem mem_touched : wk ∈ (touched todo s).watched ↔
    ∃ old ∈ s.watched, clearedBy todo old = wk ∧ hit todo old.client = false := by
  simp only [touched, mem_filter, mem_map, Bool.not_eq_true']
  constructor
  · rintro ⟨⟨old, member, rfl⟩, missed⟩
    obtain ⟨expired, same⟩ := clearedBy_eq todo old
    rw [same] at missed
    exact ⟨old, member, rfl, missed⟩
  · rintro ⟨old, member, rfl, missed⟩
    obtain ⟨expired, same⟩ := clearedBy_eq todo old
    refine ⟨⟨old, member, rfl⟩, ?_⟩
    rwa [same]

omit [DecidableEq Key] in
theorem hit_of_mem (member : wk ∈ todo) (unflagged : wk.expired = false) : hit todo wk.client = true :=
  any_eq_true.mpr ⟨wk, member, by simp [unflagged]⟩

theorem touched_flagged {first : WatchedKey Key} (flagged : first.expired = true) :
    touched todo (setExpired s first false) = touched (first :: todo) s := by
  have sameHit : hit (first :: todo) = hit todo := by
    funext c
    simp [hit, flagged]
  simp only [touched, setExpired, sameHit, map_map]
  congr 2
  refine map_congr_left fun wk _ => ?_
  by_cases same : wk = first
  · simp [clearedBy, same, flagged]
  · simp [clearedBy, same]

theorem touched_unflagged {first : WatchedKey Key} (unflagged : first.expired = false) :
    touched todo (unwatchAllKeys (setDirtyCas s first.client) first.client) = touched (first :: todo) s := by
  have sameCleared : clearedBy (first :: todo) = clearedBy todo := by
    funext wk
    by_cases same : wk = first <;> simp [clearedBy, same, unflagged]
  have owner (wk : WatchedKey Key) : (clearedBy todo wk).client = wk.client := by
    obtain ⟨expired, same⟩ := clearedBy_eq todo wk
    rw [same]
  simp only [touched, unwatchAllKeys, setDirtyCas, setClient, sameCleared, filter_map, filter_filter]
  congr 1
  · congr 1
    refine filter_congr fun wk _ => ?_
    by_cases same : wk.client = first.client
    · simp [owner, hit, unflagged, same]
    · simp [owner, hit, unflagged, same, Ne.symm same]
  · funext c
    by_cases same : c = first.client
    · simp [hit, same, unflagged]
    · simp [hit, same, Ne.symm same]

theorem touchClients_eq (db : Nat) (key : Key) (todo : List (WatchedKey Key)) (s : Server Key) :
    touchClients db key todo s = touched (visited (s.dict db key = none) todo) s := by
  have nothing (s : Server Key) : touched [] s = s := by
    have same : clearedBy ([] : List (WatchedKey Key)) = id := by
      funext wk
      simp [clearedBy]
    simp [touched, hit, same]
  induction todo generalizing s with
  | nil => simpa [touchClients, visited] using (nothing s).symm
  | cons first rest ih =>
    rw [touchClients]
    split_ifs with flagged deleted
    · have gone : (setExpired s first false).dict db key = none := deleted
      rw [ih, touched_flagged s flagged]
      simp [visited, deleted, gone]
    · simpa [visited, deleted, flagged] using (nothing s).symm
    · have dict : (unwatchAllKeys (setDirtyCas s first.client) first.client).dict = s.dict := rfl
      rw [ih, touched_unflagged s (by simpa using flagged), dict]
      by_cases deleted : s.dict db key = none <;> simp [visited, deleted, flagged]
end Loop

/-- The key space is the same except for one key, and nothing else is changed. -/
structure ChangedAt (db : Nat) (key : Key) (s s' : Server Key) : Prop where
  now : s'.now = s.now
  watched : s'.watched = s.watched
  client : s'.client = s.client
  executing : s'.executing = s.executing
  elsewhere : ∀ db' key', ¬(db' = db ∧ key' = key) → s'.dict db' key' = s.dict db' key'

theorem ChangedAt.refl (db : Nat) (key : Key) (s : Server Key) : ChangedAt db key s s :=
  ⟨rfl, rfl, rfl, rfl, fun _ _ _ => rfl⟩

theorem ChangedAt.trans {db : Nat} {key : Key} {s s' s'' : Server Key} (first : ChangedAt db key s s')
    (second : ChangedAt db key s' s'') : ChangedAt db key s s'' where
  now := second.now.trans first.now
  watched := second.watched.trans first.watched
  client := second.client.trans first.client
  executing := second.executing.trans first.executing
  elsewhere db' key' other := (second.elsewhere db' key' other).trans (first.elsewhere db' key' other)

section Touch
variable [DecidableEq Key]

def entriesOf (s : Server Key) (db : Nat) (key : Key) : List (WatchedKey Key) :=
  s.watched.filter fun wk => wk.db = db ∧ wk.key = key

theorem mem_entriesOf {s : Server Key} {db : Nat} {key : Key} {wk : WatchedKey Key} :
    wk ∈ entriesOf s db key ↔ wk ∈ s.watched ∧ wk.db = db ∧ wk.key = key := by
  rw [entriesOf, mem_filter, decide_eq_true_iff]

/-- The whole list of a key is visited if the key is deleted or no entry is flagged. -/
theorem touchWatchedKey_eq {db : Nat} {key : Key} {s : Server Key}
    (free : s.dict db key = none ∨ ∀ wk ∈ entriesOf s db key, wk.expired = false) :
    touchWatchedKey s db key = touched (entriesOf s db key) s := by
  rw [touchWatchedKey, ← entriesOf, touchClients_eq, visited]
  split_ifs with deleted
  · rfl
  · rw [takeWhile_eq_self_iff.mpr]
    intro wk member
    rw [free.resolve_left (by simpa using deleted) wk member]
    rfl

theorem touchWatchedKey_detects {c db : Nat} {key : Key} {s s' : Server Key} (changed : ChangedAt db key s s')
    (free : s'.dict db key = none ∨ ∀ wk ∈ s.watched, wk.db = db → wk.key = key → wk.expired = false) :
    Detects c s (touchWatchedKey s' db key) := by
  rw [touchWatchedKey_eq]
  · apply entries_detect
    · exact changed.executing
    · intro dirty
      simp only [touched, changed.client]
      split_ifs
      · rfl
      · exact dirty
    · intro regular wk member flagged
      obtain ⟨old, inside, rfl, -⟩ := (mem_touched s').mp member
      rw [clearedBy] at flagged ⊢
      split_ifs at flagged ⊢ with cleared
      have away : ¬(old.db = db ∧ old.key = key) := fun on => cleared ⟨flagged, mem_entriesOf.mpr ⟨inside, on⟩⟩
      exact (keyIsExpired_congr changed.now (changed.elsewhere _ _ away)).trans
        (regular old (changed.watched ▸ inside) flagged)
    · rintro regular wk member rfl
      have inside : wk ∈ s'.watched := changed.watched ▸ member
      cases reached : hit (entriesOf s' db key) wk.client with
      | true => exact .inl (.inl (by simp [touched, reached]))
      | false =>
        have left := (mem_touched s').mpr ⟨wk, inside, rfl, reached⟩
        by_cases on : wk.db = db ∧ wk.key = key
        · -- The entry is flagged, so its key was expired, and as the loop goes on it is deleted now.
          have flag : wk.expired = true := by
            by_contra unflagged
            rw [hit_of_mem (mem_entriesOf.mpr ⟨inside, on⟩) (by simpa using unflagged)] at reached
            cases reached
          refine .inr ⟨?_, ?_, fun unflagged => by rw [flag] at unflagged; cases unflagged⟩
          · obtain ⟨expired, same⟩ := clearedBy_eq (entriesOf s' db key) wk
            rw [same] at left
            exact ⟨_, left, rfl, rfl, rfl⟩
          · rw [live_of_expired (regular wk member flag)]
            apply live_eq_none
            rcases free with gone | unflagged
            · rwa [on.1, on.2]
            · rw [unflagged wk member on.1 on.2] at flag
              cases flag
        · rw [clearedBy, if_neg fun cleared => on (mem_entriesOf.mp cleared.2).2] at left
          exact .same left changed.now (changed.elsewhere _ _ on)
  · refine free.imp_right fun unflagged wk member => ?_
    obtain ⟨inside, sameDb, sameKey⟩ := mem_entriesOf.mp member
    exact unflagged wk (changed.watched ▸ inside) sameDb sameKey
end Touch
end Redis.Watch

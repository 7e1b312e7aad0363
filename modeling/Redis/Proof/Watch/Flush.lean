import Redis.Proof.Watch.Commands

namespace Redis.Watch

variable {Key : Type}
variable {f : WatchedKey Key → WatchedKey Key} {wk : WatchedKey Key} (s : Server Key)
variable {db c : Nat} {key : Key}

theorem keyIsExpired_of_absent {s : Server Key} (absent : s.dict db key = none) : keyIsExpired s db key = false := by
  rw [keyIsExpired, getExpire, absent]
  rfl

theorem isSome_of_keyIsExpired {s : Server Key} (expired : keyIsExpired s db key = true) :
    (s.dict db key).isSome = true := by
  by_contra absent
  rw [keyIsExpired_of_absent (by simpa using absent)] at expired
  cases expired

theorem live_eq_none_iff {s : Server Key} :
    live s db key = none ↔ s.dict db key = none ∨ keyIsExpired s db key = true := by
  rw [live]
  split_ifs with expired
  · exact ⟨fun _ => .inr expired, fun _ => rfl⟩
  · exact ⟨.inl, fun cases => cases.elim id fun late => absurd late expired⟩

section Verdicts
/-- The entry after its verdict. -/
def flagged (s : Server Key) (emptied : Nat) (replacedWith : Option Nat) (wk : WatchedKey Key) : WatchedKey Key :=
  match if wk.db = emptied then flushVerdict s emptied replacedWith wk else .ignore with
  | .flag expired => { wk with expired }
  | _ => wk

variable (s : Server Key) (emptied : Nat) (replacedWith : Option Nat)

theorem flagged_eq (wk : WatchedKey Key) : ∃ expired, flagged s emptied replacedWith wk = { wk with expired } := by
  rw [flagged]
  split
  · exact ⟨_, rfl⟩
  · exact ⟨wk.expired, rfl⟩

theorem flagged_elsewhere (other : wk.db ≠ emptied) : flagged s emptied replacedWith wk = wk := by
  rw [flagged, if_neg other]

theorem touchAll_dirty_mono (c : Nat) (dirty : (s.client c).dirtyCas = true) :
    ((touchAllWatchedKeysInDb s emptied replacedWith).client c).dirtyCas = true := by
  rw [touchAllWatchedKeysInDb]
  dsimp only
  split_ifs
  · rfl
  · exact dirty

theorem touchAll_dirty (member : wk ∈ s.watched) (inside : wk.db = emptied)
    (verdict : flushVerdict s emptied replacedWith wk = .dirty) :
    ((touchAllWatchedKeysInDb s emptied replacedWith).client wk.client).dirtyCas = true := by
  rw [touchAllWatchedKeysInDb]
  dsimp only
  rw [if_pos]
  rw [List.any_eq_true]
  exact ⟨wk, member, decide_eq_true ⟨rfl, (if_pos inside).trans verdict⟩⟩
end Verdicts

section Replaced
variable {s s' : Server Key}

/-- What a flush or a swap does to the entry of a watched key. -/
inductive Replaced (s s' : Server Key) (f : WatchedKey Key → WatchedKey Key) (wk : WatchedKey Key) : Prop where
  | inside (other : Option Nat) (dict : s'.dict wk.db wk.key = other.bind fun db => s.dict db wk.key)
      (flag : f wk = flagged s wk.db other wk)
      (marked : flushVerdict s wk.db other wk = .dirty → (s'.client wk.client).dirtyCas = true)
      (silent : wk.expired = true → live s' wk.db wk.key = none)
  | outside (dict : s'.dict wk.db wk.key = s.dict wk.db wk.key) (same : f wk = wk)

/-- The verdict compares the key before and after. -/
theorem flushVerdict_eq {other : Option Nat} (now : s'.now = s.now)
    (dict : s'.dict wk.db wk.key = other.bind fun db => s.dict db wk.key) :
    flushVerdict s wk.db other wk = if (s.dict wk.db wk.key).isSome || (s'.dict wk.db wk.key).isSome then
        if wk.expired then
          if !(s'.dict wk.db wk.key).isSome then .flag false
          else if keyIsExpired s' wk.db wk.key then .ignore else .dirty
        else if !(s.dict wk.db wk.key).isSome && keyIsExpired s' wk.db wk.key then .flag true else .dirty
      else .ignore := by
  cases other with
  | none => simp [flushVerdict, dict, keyIsExpired_of_absent dict]
  | some db => simp [flushVerdict, dict, keyIsExpired_congr now dict]

/-- The flag of an entry after the verdict fits the new key, and the client is dirty or sees no difference. -/
theorem Replaced.fits (replaced : Replaced s s' f wk) (now : s'.now = s.now) (member : f wk ∈ s'.watched)
    (owned : ∃ expired, f wk = { wk with expired }) (regular : wk.expired = true → keyIsExpired s wk.db wk.key = true) :
    ((f wk).expired = true → keyIsExpired s' wk.db wk.key = true) ∧ Kept s s' wk := by
  have watches : Watches s' wk.client wk.db wk.key := by
    obtain ⟨expired, same⟩ := owned
    rw [same] at member
    exact ⟨_, member, rfl, rfl, rfl⟩
  cases replaced with
  | outside dict same =>
    rw [same] at member ⊢
    exact ⟨fun flag => (keyIsExpired_congr now dict).trans (regular flag), .same member now dict⟩
  | inside other dict flag marked silent =>
    have verdict := flushVerdict_eq now dict
    rw [flag, flagged, if_pos rfl]
    cases expired : wk.expired with
    | true =>
      have late := regular expired
      have unseen := (silent expired).trans (live_of_expired late).symm
      rw [isSome_of_keyIsExpired late, if_pos expired] at verdict
      refine ⟨fun flagged => ?_, .inr ⟨watches, unseen, fun unflagged => ?_⟩⟩
      · rcases live_eq_none_iff.mp (silent expired) with absent | late'
        · rw [verdict, absent] at flagged
          cases flagged
        · exact late'
      · rw [expired] at unflagged
        cases unflagged
    | false =>
      rw [expired, if_neg Bool.false_ne_true] at verdict
      by_cases dirty : flushVerdict s wk.db other wk = .dirty
      · rw [dirty]
        exact ⟨fun flagged => absurd (expired.symm.trans flagged) Bool.false_ne_true, .inl (.inl (marked dirty))⟩
      · -- The key was absent, and the new one is absent or expired.
        cases before : s.dict wk.db wk.key with
        | some entry =>
          rw [before] at verdict
          exact absurd verdict dirty
        | none =>
          rw [before, Option.isSome_none, Bool.false_or, Bool.not_false, Bool.true_and] at verdict
          have early := keyIsExpired_of_absent before
          cases after : s'.dict wk.db wk.key with
          | none =>
            rw [after] at verdict
            rw [verdict]
            exact ⟨fun flagged => absurd (expired.symm.trans flagged) Bool.false_ne_true,
              .inr ⟨watches, (live_eq_none after).trans (live_eq_none before).symm, fun _ => early⟩⟩
          | some entry =>
            rw [after, Option.isSome_some, if_pos rfl] at verdict
            have late : keyIsExpired s' wk.db wk.key = true := by
              by_contra fresh
              exact dirty (verdict.trans (if_neg fresh))
            exact ⟨fun _ => late,
              .inr ⟨watches, (live_of_expired late).trans (live_eq_none before).symm, fun _ => early⟩⟩

theorem replaced_detects (executing : s'.executing = s.executing) (now : s'.now = s.now)
    (dirty : ∀ c, (s.client c).dirtyCas = true → (s'.client c).dirtyCas = true)
    (mapped : s'.watched = s.watched.map f) (owned : ∀ wk, ∃ expired, f wk = { wk with expired })
    (replaced : ∀ wk ∈ s.watched, Replaced s s' f wk) : Detects c s s' := by
  have fits : Regular s → ∀ wk ∈ s.watched, ((f wk).expired = true → keyIsExpired s' wk.db wk.key = true) ∧
      Kept s s' wk := fun regular wk member =>
    (replaced wk member).fits now (mapped ▸ List.mem_map_of_mem member) (owned wk) (regular wk member)
  apply entries_detect executing (dirty c)
  · intro regular wk member flag
    rw [mapped] at member
    obtain ⟨old, inside, rfl⟩ := List.mem_map.mp member
    have late := (fits regular old inside).1 flag
    obtain ⟨expired, same⟩ := owned old
    rwa [same]
  · exact fun regular wk member _ => (fits regular wk member).2
end Replaced

theorem emptyDb_detects (db : Nat) : Detects c s (emptyDb s db) := by
  apply replaced_detects (f := flagged s db none)
  · rfl
  · rfl
  · exact touchAll_dirty_mono s db none
  · rfl
  · exact flagged_eq s db none
  · intro wk member
    by_cases inside : wk.db = db
    · subst inside
      have empty : (emptyDb s wk.db).dict wk.db wk.key = none := by
        rw [emptyDb]
        dsimp only
        rw [Function.update_self]
      exact .inside none empty rfl (touchAll_dirty s wk.db none member rfl) fun _ => live_eq_none empty
    · apply Replaced.outside
      · rw [emptyDb]
        dsimp only
        rw [Function.update_of_ne inside]
        rfl
      · exact flagged_elsewhere s db none inside

def clearBelow (count : Nat) (s : Server Key) : Server Key :=
  { s with dict := fun db => if db < count then fun _ => none else s.dict db }

theorem touchAll_clearBelow (count : Nat) (s : Server Key) : touchAllWatchedKeysInDb (clearBelow count s) count none =
      clearBelow count (touchAllWatchedKeysInDb s count none) := by
  have same : (clearBelow count s).dict count = s.dict count := if_neg (Nat.lt_irrefl count)
  have verdict : ∀ wk, flushVerdict (clearBelow count s) count none wk = flushVerdict s count none wk := by
    intro wk
    simp [flushVerdict, same]
  simp only [touchAllWatchedKeysInDb, verdict]
  rfl

/-- Signalling all databases and then emptying them is emptying them one by one. -/
theorem foldl_emptyDb (count : Nat) (s : Server Key) : (List.range count).foldl emptyDb s =
      clearBelow count ((List.range count).foldl (fun s db => touchAllWatchedKeysInDb s db none) s) := by
  induction count with
  | zero => simp [clearBelow]
  | succ count ih =>
    rw [List.range_succ, List.foldl_append, List.foldl_append, ih]
    simp only [List.foldl_cons, List.foldl_nil]
    rw [emptyDb, touchAll_clearBelow]
    simp only [clearBelow]
    congr 1
    funext db
    by_cases here : db = count
    · rw [here, Function.update_self, if_pos (Nat.lt_succ_self count)]
    · rw [Function.update_of_ne here]
      by_cases below : db < count
      · rw [if_pos below, if_pos (by omega)]
      · rw [if_neg below, if_neg (by omega)]

theorem foldl_emptyDb_detects (dbs : List Nat) (s : Server Key) : Detects c s (dbs.foldl emptyDb s) := by
  induction dbs generalizing s with
  | nil => exact .refl c s
  | cons db dbs ih => exact (emptyDb_detects s db).trans (ih _)

theorem foldl_touchAll_dbnum (dbs : List Nat) (s : Server Key) :
    (dbs.foldl (fun s db => touchAllWatchedKeysInDb s db none) s).dbnum = s.dbnum := by
  induction dbs generalizing s with
  | nil => rfl
  | cons db dbs ih => exact ih _

theorem emptyAll_detects : Detects c s (emptyAll s) := by
  have emptied := @foldl_emptyDb_detects Key c (List.range s.dbnum) s
  rw [foldl_emptyDb] at emptied
  rwa [emptyAll, foldl_touchAll_dbnum]

/-- The verdict on an entry depends on the key space and on the time. -/
theorem flushVerdict_congr {s s' : Server Key} (now : s'.now = s.now) (dict : s'.dict = s.dict) (emptied : Nat)
    (replacedWith : Option Nat) (wk : WatchedKey Key) :
    flushVerdict s' emptied replacedWith wk = flushVerdict s emptied replacedWith wk := by
  have expired : ∀ db, keyIsExpired s' db wk.key = keyIsExpired s db wk.key := fun db =>
    keyIsExpired_congr now (by rw [dict])
  simp only [flushVerdict, dict, expired]

theorem dbSwapDatabases_detects (first second : Nat)
    (silent : ∀ wk ∈ s.watched, wk.expired = true → (wk.db = first → live s second wk.key = none) ∧ (wk.db = second → live s first wk.key = none)) :
    Detects c s (dbSwapDatabases s first second) := by
  rw [dbSwapDatabases]
  split_ifs with refused
  · exact .refl c s
  · have different : first ≠ second := fun same => refused (.inr (.inr same))
    dsimp only
    generalize middle : touchAllWatchedKeysInDb s first (some second) = s₁
    have dict₁ : s₁.dict = s.dict := middle ▸ rfl
    have now₁ : s₁.now = s.now := middle ▸ rfl
    have watched₁ : s₁.watched = s.watched.map (flagged s first (some second)) := middle ▸ rfl
    generalize last : touchAllWatchedKeysInDb s₁ second (some first) = s₂
    have dict₂ : s₂.dict = s.dict := by rw [← dict₁, ← last]; rfl
    have now₂ : s₂.now = s.now := by rw [← now₁, ← last]; rfl
    have watched₂ : s₂.watched = s.watched.map (flagged s₁ second (some first) ∘ flagged s first (some second)) := by
      rw [← List.map_map, ← watched₁, ← last]
      rfl
    have mono : ∀ c, (s₁.client c).dirtyCas = true → (s₂.client c).dirtyCas = true := by
      intro c dirty
      rw [← last]
      exact touchAll_dirty_mono s₁ second (some first) c dirty
    apply replaced_detects (f := flagged s₁ second (some first) ∘ flagged s first (some second))
    · rw [← last, ← middle]
      rfl
    · exact now₂
    · intro c dirty
      apply mono
      rw [← middle]
      exact touchAll_dirty_mono s first (some second) c dirty
    · exact watched₂
    · intro wk
      obtain ⟨expired, same⟩ := flagged_eq s first (some second) wk
      rw [Function.comp_apply, same]
      exact flagged_eq s₁ second (some first) { wk with expired }
    · intro wk member
      by_cases inFirst : wk.db = first
      · subst inFirst
        have dict : Function.update (Function.update s₂.dict wk.db (s₂.dict second)) second (s₂.dict wk.db) wk.db =
            s.dict second := by
          rw [Function.update_of_ne different, Function.update_self, dict₂]
        refine .inside (some second) (congrFun dict _) ?_ ?_ fun flag => ?_
        · obtain ⟨expired, same⟩ := flagged_eq s wk.db (some second) wk
          exact flagged_elsewhere s₁ second (some wk.db) (by rw [same]; exact different)
        · intro verdict
          apply mono
          rw [← middle]
          exact touchAll_dirty s wk.db (some second) member rfl verdict
        · exact Eq.trans (live_congr (by exact now₂) (congrFun dict _)) ((silent wk member flag).1 rfl)
      · have untouched := flagged_elsewhere s first (some second) inFirst
        by_cases inSecond : wk.db = second
        · subst inSecond
          have dict : Function.update (Function.update s₂.dict first (s₂.dict wk.db)) wk.db (s₂.dict first) wk.db =
              s.dict first := by
            rw [Function.update_self, dict₂]
          refine .inside (some first) (congrFun dict _) ?_ ?_ fun flag => ?_
          · rw [Function.comp_apply, untouched, flagged, flagged, flushVerdict_congr now₁ dict₁]
          · intro verdict
            rw [← flushVerdict_congr now₁ dict₁] at verdict
            have inside : wk ∈ s₁.watched := by
              rw [watched₁]
              exact List.mem_map.mpr ⟨wk, member, untouched⟩
            rw [← last]
            exact touchAll_dirty s₁ wk.db (some first) inside rfl verdict
          · exact Eq.trans (live_congr (by exact now₂) (congrFun dict _)) ((silent wk member flag).2 rfl)
        · apply Replaced.outside
          · dsimp only
            rw [Function.update_of_ne inSecond, Function.update_of_ne inFirst, dict₂]
          · rw [Function.comp_apply, untouched]
            exact flagged_elsewhere s₁ second (some first) inSecond

end Redis.Watch

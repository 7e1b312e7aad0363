import Redis.Foundation.Loop
import Redis.Proof.Watch.Session

namespace Redis.Watch
open Foundation
variable {Key : Type} [DecidableEq Key]
variable {c : Nat} {s s' : Server Key} {key : Key}

section Step
/-- A step lets no watched change go unnoticed by a client that does not release its keys. -/
theorem step_detects {event : Event Key} (idle : ∀ rest, s.executing ≠ some (c, rest))
    (signalled : event.Signalled s) (kept : ¬Releases c s event) :
    Outcome (step s event) (fun _ => False) fun result => Detects c s result.1 := by
  rw [step]
  cases executing : s.executing with
  | none => exact serve_detects executing signalled kept
  | some transaction =>
    obtain ⟨e, rest⟩ := transaction
    by_cases next : event = .execNext
    · subst next
      exact execNext_detects executing signalled fun same => idle rest (same ▸ executing)
    · simp only [next]
      exact .refl c s

theorem step_tracks {db : Nat} {base : Option Entry} (s : Server Key) (event : Event Key)
    (tracked : Regular s ∧ Tracks c db key base s) (guard : event.Signalled s ∧ ¬Releases c s event) :
    Outcome (step s event) (fun _ => False) fun result => Regular result.1 ∧ Tracks c db key base result.1 :=
  Outcome.mono (step_detects tracked.2.1 guard.1 guard.2) fun _ detects =>
    ⟨(detects tracked.1).1, (detects tracked.1).2 db key base tracked.2⟩

def Event.actor : Event Key → Nat
  | .watch c _ | .multi c | .discard c | .exec c | .command c _ | .reject c => c
  | _ => 0

omit [DecidableEq Key] in
/-- Some client takes no part in the event. -/
theorem exists_bystander (s : Server Key) (event : Event Key) :
    ∃ c, ¬Releases c s event ∧ ∀ rest, s.executing ≠ some (c, rest) := by
  refine ⟨event.actor + (s.executing.elim 0 Prod.fst) + 1, ?_, ?_⟩
  · generalize other : event.actor + (s.executing.elim 0 Prod.fst) + 1 = c
    rintro ⟨-, ⟨rfl | rfl, -⟩ | ⟨rfl, -⟩⟩
    all_goals
      rw [Event.actor] at other
      omega
  · intro rest busy
    rw [busy, Option.elim_some] at busy
    have same := congrArg Prod.fst (Option.some.inj busy)
    dsimp only at same
    omega

theorem step_regular (s : Server Key) (event : Event Key) (regular : Regular s) (signalled : event.Signalled s) :
    Outcome (step s event) (fun _ => False) fun result => Regular result.1 := by
  obtain ⟨c, kept, idle⟩ := exists_bystander s event
  exact Outcome.mono (step_detects idle signalled kept) fun _ detects => (detects regular).1
end Step

section Exec
omit [DecidableEq Key] in
/-- A doomed client's `EXEC` discards the transaction. -/
theorem execCommand_doomed (doomed : Doomed s c) (multi : (s.client c).multi = true) :
    (execCommand s c).1.dict = s.dict ∧ (execCommand s c).1.executing = s.executing ∧
      (execCommand s c).2 = if (s.client c).dirtyExec then .execAbort else .nil := by
  have dirty : ((if isWatchedKeyExpired s c then setDirtyCas s c else s).client c).dirtyCas = true := by
    by_cases expired : isWatchedKeyExpired s c = true
    · rw [if_pos expired, setDirtyCas, setClient]
      dsimp only
      rw [Function.update_self]
    · rw [if_neg expired]
      rcases doomed with marked | ⟨wk, member, mine, unflagged, late⟩
      · exact marked
      · refine absurd ?_ expired
        rw [isWatchedKeyExpired, List.any_eq_true]
        exact ⟨wk, List.mem_filter.mpr ⟨member, decide_eq_true mine⟩, by rw [unflagged, late]; rfl⟩
  have dict : (if isWatchedKeyExpired s c then setDirtyCas s c else s).dict = s.dict := by
    split_ifs <;> rfl
  have executing : (if isWatchedKeyExpired s c then setDirtyCas s c else s).executing = s.executing := by
    split_ifs <;> rfl
  have exec : ((if isWatchedKeyExpired s c then setDirtyCas s c else s).client c).dirtyExec = (s.client c).dirtyExec := by
    split_ifs
    · rw [setDirtyCas, setClient]
      dsimp only
      rw [Function.update_self]
    · rfl
  rw [execCommand, multi, Bool.not_true, if_neg Bool.false_ne_true]
  dsimp only
  generalize (if isWatchedKeyExpired s c then setDirtyCas s c else s) = s' at dirty dict executing exec ⊢
  rw [dirty, Bool.true_or, if_pos rfl, exec]
  exact ⟨dict, executing, rfl⟩

/-- The client's `EXEC` executes nothing, and it replies nil when it ends a transaction without other errors. -/
def Aborts (c : Nat) (s : Server Key) : Prop :=
  ∃ s' reply, step s (.exec c) = .ok (s', reply) ∧ s'.dict = s.dict ∧ s'.executing = none ∧
    ((s.client c).multi = true → (s.client c).dirtyExec = false → reply = .nil)

theorem Doomed.aborts (doomed : Doomed s c) (quiet : s.executing = none) : Aborts c s := by
  have served : step s (.exec c) = .ok (execCommand s c) := by
    rw [step, quiet]
    rfl
  by_cases multi : (s.client c).multi = true
  · obtain ⟨dict, executing, reply⟩ := execCommand_doomed doomed multi
    refine ⟨(execCommand s c).1, (execCommand s c).2, served, dict, executing.trans quiet, fun _ clean => ?_⟩
    rw [reply, clean, if_neg Bool.false_ne_true]
  · have refused : execCommand s c = (s, .error) := by
      rw [execCommand, if_pos (by simpa using multi)]
    rw [refused] at served
    exact ⟨s, .error, served, rfl, quiet, fun yes => absurd yes multi⟩

/-- After an accepted `WATCH`, a change of a watched key dooms the client's next `EXEC`. -/
def AbortsAfterChange (dbnum c : Nat) (keys : List Key) (before middle after : List (Event Key)) : Prop :=
  ∀ s₀ s₁ s₂ s₃ outs₀ outs₂ outs₃ key, run step (initServer dbnum) before = .ok (s₀, outs₀) →
    step s₀ (.watch c keys) = .ok (s₁, .ok) → run step s₁ middle = .ok (s₂, outs₂) →
    run step s₂ after = .ok (s₃, outs₃) → Guarded step (fun s event => ¬Releases c s event) s₁ (middle ++ after) →
    key ∈ keys → live s₂ (s₁.client c).db key ≠ live s₁ (s₁.client c).db key → s₃.executing = none → Aborts c s₃

omit [DecidableEq Key] in
theorem initServer_regular (dbnum : Nat) : Regular (initServer dbnum : Server Key) :=
  fun _ member => absurd member List.not_mem_nil

theorem step_watch_tracks {keys : List Key}
    (stepped : step s (.watch c keys) = .ok (s', .ok)) (regular : Regular s) (member : key ∈ keys) :
    Regular s' ∧ Tracks c (s'.client c).db key (live s' (s'.client c).db key) s' := by
  rw [step] at stepped
  cases executing : s.executing with
  | some transaction => simp [executing] at stepped
  | none =>
    simp only [executing, Option.isSome_none, Bool.false_eq_true, if_false, serve, Except.ok.injEq] at stepped
    have accepted : (watchCommand s c keys).2 = .ok := by rw [stepped]
    have tracks := watchCommand_tracks accepted executing member
    have detects : Detects c s (watchCommand s c keys).1 := watchCommand_detects s keys
    have regular' := (detects regular).1
    have client := (@watchCommand_frame Key s keys _ c).1
    rw [stepped] at tracks regular' client
    rw [client]
    exact ⟨regular', tracks⟩

/-- A doomed client stays doomed: it tracks a key with every value that the key could have had. -/
theorem run_doomed {events : List (Event Key)} {outs : List Reply} (regular : Regular s)
    (doomed : Doomed s c) (idle : ∀ rest, s.executing ≠ some (c, rest))
    (guarded : Guarded step (fun s event => event.Signalled s ∧ ¬Releases c s event) s events)
    (finished : run step s events = .ok (s', outs)) (key : Key) : Doomed s' c := by
  have tracked : ∀ base, Tracks c 0 key base s' := fun base =>
    ((run_invariant step_tracks events s ⟨regular, idle, .inl doomed⟩ guarded).of_ok finished).2
  rcases (tracked none).2 with doomed' | ⟨-, absent⟩
  · exact doomed'
  · rcases (tracked (some ⟨0, none⟩)).2 with doomed' | ⟨-, present⟩
    · exact doomed'
    · rw [absent] at present
      cases present

end Exec

/-- A key whose time to live is over, but which is not deleted yet. -/
def staleKey : List (Event Nat) := [.command 9 (.set 0 false false false (some 5)), .tick 10]

theorem not_aborts {count : Nat} (executed : step s (.exec c) = .ok (s', .array count))
    (multi : (s.client c).multi = true) (clean : (s.client c).dirtyExec = false) : ¬Aborts c s := by
  rintro ⟨s'', reply, stepped, -, -, nil⟩
  rw [executed] at stepped
  have same := nil multi clean
  cases stepped
  cases same

/-- `RESTORE` with `REPLACE` deletes the old key without a signal, so the loop stops at the flag of the watcher. -/
def restoreOver : Event Nat := .command 9 (.restore 0 0 false true true)

/-- A database with a live key of the same name takes the place of the one with the expired key. -/
def swapOver : List (Event Nat) :=
  [.command 8 (.select 1), .command 8 (.update 0 .write), .watch 1 [0], .command 9 (.swapdb 0 1)]

end Redis.Watch

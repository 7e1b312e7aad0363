/-
This file proves that the files of the manifest rebuild the dataset over every run of writes, flushes and rewrites
whose rewrites start with an empty buffer.
-/

import Redis.Construction.Aof.Rewrite
import Redis.Foundation.Pointwise
import Redis.Proof.Aof.Recovery

namespace Redis.Aof
open Foundation List
variable {config : Config} {known : Sds → Bool}
variable {results : List WriteResult} (unixtime : Int64) (ops : List (RedisOp config)) (touchesArbitraryKeys : Bool)

section Flush
variable {server : Server} {file : OpenFile}

/-- The write calls of one flush write everything or nothing. -/
def WritesWhole (results : List WriteResult) : Prop :=
  .failed ∈ results → ∀ result ∈ results, result = .failed ∨ result = .eintr

instance (results : List WriteResult) : Decidable (WritesWhole results) := inferInstanceAs (Decidable (_ → _))

theorem FileFlushed.whole {next : Server} (flushed : FileFlushed results server file next) (whole : WritesWhole results) :
    (next.aofFd = some file ∧ next.aofBuf = server.aofBuf) ∨
      (next.aofFd = some (file.write server.aofBuf) ∧ next.aofBuf = []) := by
  have all {count : Nat} (wrote : Wrote results server.aofBuf count) (positive : 0 < count) :
      count = server.aofBuf.length := by
    by_cases fails : .failed ∈ results
    · exact absurd (wrote.nothing fails (whole fails)) (by omega)
    · exact wrote.complete fails
  cases flushed with
  | unchanged aofFd aofBuf => exact .inl ⟨aofFd, aofBuf⟩
  | undone count wrote positive short => exact absurd (all wrote positive) (by omega)
  | kept count wrote positive aofFd aofBuf =>
    rw [all wrote positive, take_length] at aofFd
    rw [all wrote positive, drop_length] at aofBuf
    exact .inr ⟨aofFd, aofBuf⟩
end Flush

section Files
variable {Dataset : Type} {apply : Dataset → Nat × List Sds → Dataset}

/-- A file that holds whole records and ends between two entries. -/
structure Logs (config : Config) (known : Sds → Bool) (file : Sds) (records : List Record) : Prop where
  bytes : file = records.flatMap Record.bytes
  found : ∀ record ∈ records, record.Known known
  idle : Idle (replay config known records)

theorem Logs.load {file : Sds} {records : List Record} (logs : Logs config known file records)
    (rdbLoadRio : Sds → Option Nat) :
    let result := loadSingleAppendOnlyFile config known rdbLoadRio true file
    (result.status = .ok ∨ result.status = .empty) ∧ result.client = replay config known records := by
  obtain ⟨_, client⟩ := @load_records config known _ rdbLoadRio logs.found
  rw [← logs.bytes] at client
  refine ⟨?_, client⟩
  by_cases empty : file = []
  · rw [loadSingleAppendOnlyFile, if_pos empty]
    exact .inr rfl
  · have some : records.flatMap Record.bytes ++ [] ≠ [] := by
      rw [append_nil, ← logs.bytes]
      exact empty
    have loaded := @loadSingleAppendOnlyFile_records records false config known rdbLoadRio logs.found [] .nothing some
    have outside : (records.foldl (Progress.deliver config known) .start).client.multi = false := by
      rw [foldl_deliver_client]
      exact logs.idle.multi
    rw [append_nil, ← logs.bytes] at loaded
    rw [loaded, Progress.ends, outside]
    exact .inl rfl

def executedFiles (config : Config) (known : Sds → Bool) (files : List (List Record)) : List (Nat × List Sds) :=
  files.flatMap fun records => (replay config known records).executed

theorem executedFiles_append (closed : List (List Record)) (records : List Record) :
    executedFiles config known (closed ++ [records]) =
      executedFiles config known closed ++ (replay config known records).executed := by
  rw [executedFiles, flatMap_append, flatMap_singleton]
  rfl

theorem loadIncrFiles_logs (rdbLoadRio : Sds → Option Nat) {files : List Sds} {logs : List (List Record)}
    (whole : List.Forall₂ (Logs config known) files logs) (dataset : Dataset) :
    loadIncrFiles config known rdbLoadRio true apply .ok dataset files =
      (.ok, (executedFiles config known logs).foldl apply dataset) := by
  induction whole generalizing dataset with
  | nil => rfl
  | @cons file records files logs own _ ih =>
    obtain ⟨status, client⟩ := own.load rdbLoadRio
    have ret : (if (loadSingleAppendOnlyFile config known rdbLoadRio true file).status = .empty then AofStatus.ok
        else (loadSingleAppendOnlyFile config known rdbLoadRio true file).status) = .ok := by
      rcases status with ok | empty
      · rw [ok]
        rfl
      · rw [if_pos empty]
    have last : (if AofStatus.ok = .truncated ∧ files ≠ [] then AofStatus.failed else .ok) = .ok := if_neg (by simp)
    rw [loadIncrFiles, ret, last, client, ih]
    simp [executedFiles]

theorem loadIncrFiles_empty (rdbLoadRio : Sds → Option Nat) {files : List Sds} (empty : ∀ file ∈ files, file = [])
    (ret : AofStatus) (dataset : Dataset) :
    (loadIncrFiles config known rdbLoadRio true apply ret dataset files).2 = dataset := by
  induction files generalizing ret with
  | nil => rfl
  | cons file files ih =>
    rw [empty file mem_cons_self]
    exact ih (forall_mem_cons.mp empty).2 .ok
end Files

def RedisOp.feed (unixtime : Int64) (op : RedisOp config) : Feed config := ⟨unixtime, some op.dbid, op.argv⟩

def RedisOp.effect (op : RedisOp config) : Nat × List Sds := (op.dbid.val, op.argv.args)

/-- The entries of the log for one execution unit. -/
def pendingEntries (unixtime : Int64) (touchesArbitraryKeys : Bool) (ops : List (RedisOp config)) : List (Entry config) :=
  if decide (ops.length > 1) && !touchesArbitraryKeys then
    [.group (unixtime, none) (ops.map (RedisOp.feed unixtime)) (unixtime, none)]
  else ops.map fun op => .single (op.feed unixtime)

theorem propagatePendingCommands_eq (server : Server) (ops : List (RedisOp config)) :
    propagatePendingCommands unixtime touchesArbitraryKeys server ops =
      feedEntries server (pendingEntries unixtime touchesArbitraryKeys ops) := by
  rw [propagatePendingCommands, pendingEntries]
  by_cases none : ops = []
  · rw [none]
    rfl
  rw [if_neg none]
  cases decide (ops.length > 1) && !touchesArbitraryKeys with
  | true =>
    simp only [if_true, feedEntries, flatMap_singleton, Entry.feeds, feedAll, foldl_cons, foldl_nil, foldl_append]
    rfl
  | false =>
    simp only [Bool.false_eq_true, if_false, feedEntries, flatMap_map, Entry.feeds]
    rw [← map_eq_flatMap]
    rfl

theorem executedFeeds_ops (db : Nat) :
    (executedFeeds db (ops.map (RedisOp.feed unixtime))).1 = ops.map RedisOp.effect := by
  induction ops generalizing db with
  | nil => rfl
  | cons op ops ih =>
    rw [map_cons, executedFeeds]
    rw [ih]
    rfl

theorem executedBy_ops (db : Nat) :
    (executedBy db (ops.map fun op => Entry.single (op.feed unixtime))).1 = ops.map RedisOp.effect := by
  induction ops generalizing db with
  | nil => rfl
  | cons op ops ih =>
    rw [map_cons, executedBy]
    rw [ih]
    rfl

/-- The log executes the operations of the unit in their own databases. -/
theorem executedBy_pending (ops : List (RedisOp config)) (db : Nat) :
    (executedBy db (pendingEntries unixtime touchesArbitraryKeys ops)).1 = ops.map RedisOp.effect := by
  rw [pendingEntries]
  split_ifs
  · rw [executedBy, executedBy, Entry.executed]
    rw [append_nil, executedFeeds_ops]
  · exact executedBy_ops unixtime ops db

theorem logged_pending {ops : List (RedisOp config)}
    (logged : ∀ op ∈ ops, lookupCommand known op.argv.args = some .other) (unixtime : Int64) (touchesArbitraryKeys : Bool) :
    ∀ entry ∈ pendingEntries unixtime touchesArbitraryKeys ops, entry.Logged known := by
  intro entry member
  rw [pendingEntries] at member
  split_ifs at member
  · rw [mem_singleton.mp member]
    intro feed fed
    obtain ⟨op, own, rfl⟩ := mem_map.mp fed
    exact logged op own
  · obtain ⟨op, own, rfl⟩ := mem_map.mp member
    exact logged op own

section Run
variable {Dataset : Type} {apply : Dataset → Nat × List Sds → Dataset} {emptyDataset : Dataset}

/-- The invariant of the runs: the files and the buffer hold whole entries, and their commands lead from the snapshot
to the dataset. -/
structure Rebuilds (config : Config) (known : Sds → Bool) (apply : Dataset → Nat × List Sds → Dataset)
    (emptyDataset : Dataset) (system : System Dataset) (closed : List (List Record)) (records : List Record)
    (file : OpenFile) : Prop where
  on : system.server.aofState = .on
  aofFd : system.server.aofFd = some file
  append : file.append = false
  atEnd : file.offset = file.bytes.length
  before : List.Forall₂ (Logs config known) system.incrs closed
  tail : Logs config known (file.bytes ++ system.server.aofBuf) records
  agrees : Agrees system.server (replay config known records)
  dataset : system.dataset = (replay config known records).executed.foldl apply
    ((executedFiles config known closed).foldl apply (system.base.getD emptyDataset))
  child : ∀ snapshot, system.child = some snapshot →
    system.dataset = (replay config known records).executed.foldl apply snapshot

theorem accepts_of_on {server : Server} (on : server.aofState = .on) : server.accepts = true := by
  simp [Server.accepts, on]

variable {system : System Dataset} {closed : List (List Record)} {records : List Record} {file : OpenFile}
  (rebuilds : Rebuilds config known apply emptyDataset system closed records file)

include rebuilds in
theorem Rebuilds.write {ops : List (RedisOp config)}
    (logged : ∀ op ∈ ops, lookupCommand known op.argv.args = some .other) (unixtime : Int64)
    (touchesArbitraryKeys : Bool) : ∃ records',
    Rebuilds config known apply emptyDataset
      { system with
        dataset := (ops.map RedisOp.effect).foldl apply system.dataset
        server := propagatePendingCommands unixtime touchesArbitraryKeys system.server ops } closed records' file := by
  have accepts := accepts_of_on rebuilds.on
  have entries := logged_pending logged unixtime touchesArbitraryKeys
  obtain ⟨delivered, agrees⟩ := deliver_entries entries accepts rebuilds.tail.idle rebuilds.agrees
  have executed := executedBy_pending unixtime touchesArbitraryKeys ops (replay config known records).db
  obtain ⟨buffer, _, aofFd, state⟩ := feedAll_records
    ((pendingEntries unixtime touchesArbitraryKeys ops).flatMap Entry.feeds) system.server accepts
  rw [propagatePendingCommands_eq]
  let more := recordsOf system.server ((pendingEntries unixtime touchesArbitraryKeys ops).flatMap Entry.feeds)
  have replayed : replay config known (records ++ more) = (replay config known records).after
      (executedBy (replay config known records).db (pendingEntries unixtime touchesArbitraryKeys ops)) := by
    rw [replay, foldl_append, delivered]
  have commands : (replay config known (records ++ more)).executed =
      (replay config known records).executed ++ ops.map RedisOp.effect := by
    rw [replayed, ← executed]
    rfl
  refine ⟨records ++ more, state.trans rebuilds.on, aofFd.trans rebuilds.aofFd, rebuilds.append, rebuilds.atEnd,
    rebuilds.before, ⟨?_, ?_, ?_⟩, ?_, ?_, ?_⟩
  · rw [feedEntries, buffer, ← append_assoc, rebuilds.tail.bytes, flatMap_append]
  · intro record member
    rcases mem_append.mp member with own | later
    · exact rebuilds.tail.found record own
    · exact known_entries entries system.server record later
  · rw [replayed]
    exact rebuilds.tail.idle.after _
  · rw [replayed]
    exact agrees
  · rw [commands, foldl_append, rebuilds.dataset]
  · intro snapshot own
    rw [commands, foldl_append, rebuilds.child snapshot own]

include rebuilds in
theorem Rebuilds.flush (policy : config.aofFsync ≠ .always) (force : Bool) {env : FlushEnv}
    (whole : WritesWhole env.writes) :
    ∃ server file', flushAppendOnlyFile config force env system.server = .ok server ∧
      server.aofSelectedDb = system.server.aofSelectedDb ∧
      Rebuilds config known apply emptyDataset { system with server := server } closed records file' := by
  obtain ⟨server, flushed, result⟩ := flushAppendOnlyFile_spec policy force env rebuilds.aofFd rebuilds.append
    rebuilds.atEnd.ge
  have agrees : Agrees server (replay config known records) := by
    intro db selected
    rw [result.selected] at selected
    exact rebuilds.agrees db selected
  rcases result.data.whole whole with ⟨aofFd, aofBuf⟩ | ⟨aofFd, aofBuf⟩
  · refine ⟨server, file, flushed, result.selected, result.state.trans rebuilds.on, aofFd, rebuilds.append, rebuilds.atEnd,
      rebuilds.before, ?_, agrees, rebuilds.dataset, rebuilds.child⟩
    rw [aofBuf]
    exact rebuilds.tail
  · obtain ⟨content, offset⟩ := OpenFile.write_at_end (fun _ => rebuilds.atEnd) system.server.aofBuf
    have append : (file.write system.server.aofBuf).append = false := by
      rw [OpenFile.write_append, rebuilds.append]
    refine ⟨server, _, flushed, result.selected, result.state.trans rebuilds.on, aofFd, append, offset append,
      rebuilds.before, ?_, agrees, rebuilds.dataset, rebuilds.child⟩
    rw [aofBuf, content, append_nil]
    exact rebuilds.tail

/-- A rewrite that switches to a new INCR file leaves no bytes of the old one in the buffer. -/
def SwitchesEmpty (system : System Dataset) : Event config → Prop
  | .rewrite env => ∀ next, rewriteAppendOnlyFileBackground config env system = .ok next →
      system.incrs.length < next.incrs.length → next.server.aofBuf = []
  | _ => True

instance (system : System Dataset) (event : Event config) : Decidable (SwitchesEmpty system event) :=
  match event with
  | .rewrite env =>
    match rewritten : rewriteAppendOnlyFileBackground config env system with
    | .ok next => decidable_of_iff (system.incrs.length < next.incrs.length → next.server.aofBuf = [])
        (by simp [SwitchesEmpty, rewritten])
    | .error _ => .isTrue (by simp [SwitchesEmpty, rewritten])
  | .write _ _ _ => .isTrue trivial
  | .flush _ _ => .isTrue trivial
  | .done _ => .isTrue trivial

/-- The writes of an event are whole, and its commands are in the command table. -/
def Event.Fine (known : Sds → Bool) : Event config → Prop
  | .write _ _ ops => ∀ op ∈ ops, lookupCommand known op.argv.args = some .other
  | .flush _ env => WritesWhole env.writes
  | .rewrite env => WritesWhole env.flush.writes
  | .done _ => True

theorem openNewIncrAofForAppend_on {server : Server} (on : server.aofState = .on) (unixtime : Int64)
    (opens persists : Bool) : openNewIncrAofForAppend unixtime opens persists server = (server, false) ∨
      openNewIncrAofForAppend unixtime opens persists server = ({ server with
        aofLastFsync := if server.aofFd.isSome then unixtime else server.aofLastFsync
        aofFd := some ⟨[], 0, false⟩
        aofLastIncrSize := 0
        aofLastIncrFsyncOffset := 0 }, true) := by
  rw [openNewIncrAofForAppend, if_neg (by rw [on]; decide)]
  by_cases missing : (!opens) = true
  · rw [if_pos missing]
    exact .inl rfl
  rw [if_neg missing]
  by_cases unwritten : server.aofState ≠ .waitRewrite ∧ (!persists) = true
  · rw [if_pos unwritten]
    exact .inl rfl
  · rw [if_neg unwritten]
    exact .inr rfl

include rebuilds in
/-- A rewrite closes the file when its bytes are whole, and the child has the dataset of that moment. -/
theorem Rebuilds.rewrite (policy : config.aofFsync ≠ .always) {env : RewriteEnv}
    (whole : WritesWhole env.flush.writes) (switches : SwitchesEmpty system (.rewrite env : Event config)) :
    ∃ next closed' records' file', rewriteAppendOnlyFileBackground config env system = .ok next ∧
      Rebuilds config known apply emptyDataset next closed' records' file' := by
  rw [SwitchesEmpty, rewriteAppendOnlyFileBackground] at switches
  rw [rewriteAppendOnlyFileBackground]
  by_cases busy : system.child.isSome = true ∨ env.otherChild = true
  · rw [if_pos busy]
    exact ⟨system, closed, records, file, rfl, rebuilds⟩
  rw [if_neg busy] at switches ⊢
  by_cases missing : (!env.dirCreated) = true
  · rw [if_pos missing]
    exact ⟨system, closed, records, file, rfl, rebuilds⟩
  rw [if_neg missing] at switches ⊢
  have unselected : Rebuilds config known apply emptyDataset
      { system with server := { system.server with aofSelectedDb := none } } closed records file :=
    { rebuilds with agrees := fun db selected => by cases selected }
  obtain ⟨server, file', flushed, selected, rebuilds'⟩ := unselected.flush policy true whole
  rw [flushed, ok_bind] at switches ⊢
  rcases openNewIncrAofForAppend_on rebuilds'.on env.flush.unixtime env.opens env.persists with failed | opened
  · rw [failed]
    exact ⟨_, closed, records, file', rfl, rebuilds'⟩
  rw [opened] at switches ⊢
  dsimp only at switches ⊢
  have closing : descriptorBytes server.aofFd = [file'.bytes] := by
    rw [rebuilds'.aofFd]
    rfl
  have empty : server.aofBuf = [] := by
    by_cases forks : env.forks = true
    · rw [if_pos forks] at switches
      exact switches _ rfl (by simp [closing])
    · rw [if_neg forks] at switches
      exact switches _ rfl (by simp [closing])
  have last : Logs config known file'.bytes records := by
    have tail := rebuilds'.tail
    rwa [empty, append_nil] at tail
  have before := List.rel_append rebuilds'.before (.cons last .nil)
  have start : Logs config known ([] ++ server.aofBuf) [] := by
    rw [empty]
    exact ⟨rfl, by simp, idle_createAOFClient⟩
  have dataset : system.dataset = (executedFiles config known (closed ++ [records])).foldl apply
      (system.base.getD emptyDataset) := by
    rw [executedFiles_append, foldl_append]
    exact rebuilds'.dataset
  have agrees : ∀ db, server.aofSelectedDb = some db → (replay config known []).db = db := by
    intro db own
    rw [selected] at own
    cases own
  rw [closing]
  by_cases forks : env.forks = true
  · rw [if_pos forks]
    refine ⟨_, closed ++ [records], [], ⟨[], 0, false⟩, rfl, rebuilds'.on, rfl, rfl, rfl, before, start, agrees, dataset, ?_⟩
    intro snapshot same
    cases same
    rfl
  · rw [if_neg forks]
    refine ⟨_, closed ++ [records], [], ⟨[], 0, false⟩, rfl, rebuilds'.on, rfl, rfl, rfl, before, start, agrees, dataset, ?_⟩
    intro snapshot same
    have none : system.child.isSome = true := by rw [show system.child = some snapshot from same]; rfl
    exact absurd (.inl none) busy

include rebuilds in
/-- The end of a rewrite keeps the files or replaces them by the snapshot. -/
theorem Rebuilds.done (env : DoneEnv) :
    ∃ closed', Rebuilds config known apply emptyDataset (backgroundRewriteDoneHandler env system) closed' records file := by
  rw [backgroundRewriteDoneHandler]
  cases child : system.child with
  | none => exact ⟨closed, rebuilds⟩
  | some snapshot =>
    split_ifs
    · exact ⟨[], { rebuilds with
        before := .nil
        dataset := rebuilds.child snapshot child
        child := fun other none => by cases none }⟩
    · exact ⟨closed, { rebuilds with child := fun other none => by cases none }⟩

include rebuilds in
/-- The files of the manifest and the buffer load to the dataset. -/
theorem Rebuilds.load (rdbLoadRio : Sds → Option Nat) : ∃ status, (status = .ok ∨ status = .empty) ∧
    loadAppendOnlyFiles config known rdbLoadRio true apply emptyDataset system.base system.files =
      (some status, system.dataset) := by
  have files : system.files = system.incrs ++ [file.bytes ++ system.server.aofBuf] := by
    rw [System.files, rebuilds.aofFd]
  have whole : List.Forall₂ (Logs config known) system.files (closed ++ [records]) := by
    rw [files]
    exact List.rel_append rebuilds.before (.cons rebuilds.tail .nil)
  have loaded := @loadIncrFiles_logs config known _ apply rdbLoadRio _ _ whole (system.base.getD emptyDataset)
  have dataset : (executedFiles config known (closed ++ [records])).foldl apply (system.base.getD emptyDataset) =
      system.dataset := by
    rw [executedFiles_append, foldl_append, rebuilds.dataset]
  rw [dataset] at loaded
  rw [loadAppendOnlyFiles, if_neg (by simp [files])]
  split_ifs with nothing
  · have same := @loadIncrFiles_empty config known _ apply rdbLoadRio _ nothing.2 .ok (system.base.getD emptyDataset)
    rw [loaded, Option.isNone_iff_eq_none.mp nothing.1] at same
    exact ⟨.empty, .inr rfl, by rw [show system.dataset = emptyDataset from same]⟩
  · rw [loaded]
    exact ⟨.ok, .inl rfl, rfl⟩

include rebuilds in
theorem Rebuilds.step (policy : config.aofFsync ≠ .always) {event : Event config} (fine : event.Fine known)
    (switches : SwitchesEmpty system event) :
    ∃ next closed' records' file', system.step apply event = .ok (next, ()) ∧
      Rebuilds config known apply emptyDataset next closed' records' file' := by
  cases event with
  | write unixtime touchesArbitraryKeys ops =>
    obtain ⟨records', rebuilds'⟩ := rebuilds.write fine unixtime touchesArbitraryKeys
    exact ⟨_, closed, records', file, rfl, rebuilds'⟩
  | flush force env =>
    obtain ⟨server, file', flushed, _, rebuilds'⟩ := rebuilds.flush policy force fine
    refine ⟨_, closed, records, file', ?_, rebuilds'⟩
    rw [System.step, flushed]
    rfl
  | rewrite env =>
    obtain ⟨next, closed', records', file', rewritten, rebuilds'⟩ := rebuilds.rewrite policy fine switches
    refine ⟨next, closed', records', file', ?_, rebuilds'⟩
    rw [System.step, rewritten]
    rfl
  | done env =>
    obtain ⟨closed', rebuilds'⟩ := rebuilds.done env
    exact ⟨_, closed', records, file, rfl, rebuilds'⟩

include rebuilds in
theorem Rebuilds.run (policy : config.aofFsync ≠ .always) {events : List (Event config)}
    (fine : ∀ event ∈ events, event.Fine known) (guarded : Guarded (System.step apply) SwitchesEmpty system events) :
    ∃ final outs closed' records' file', run (System.step apply) system events = .ok (final, outs) ∧
      Rebuilds config known apply emptyDataset final closed' records' file' := by
  induction events generalizing system closed records file with
  | nil => exact ⟨system, [], closed, records, file, rfl, rebuilds⟩
  | cons event events ih =>
    obtain ⟨next, closed', records', file', stepped, rebuilds'⟩ :=
      rebuilds.step policy (fine event mem_cons_self) guarded.1
    obtain ⟨final, outs, closed'', records'', file'', ran, rebuilds''⟩ := ih rebuilds'
      (forall_mem_cons.mp fine).2 (guarded.2 next () stepped)
    refine ⟨final, () :: outs, closed'', records'', file'', ?_, rebuilds''⟩
    rw [Foundation.run, stepped, ok_bind]
    dsimp only
    rw [ran]
    rfl

/-- A server that has loaded or written its BASE file and opened a first INCR file. -/
structure Started (emptyDataset : Dataset) (system : System Dataset) : Prop where
  on : system.server.aofState = .on
  fresh : Fresh system.server
  aofFd : system.server.aofFd = some ⟨[], 0, false⟩
  base : system.dataset = system.base.getD emptyDataset
  incrs : system.incrs = []
  child : system.child = none

theorem Started.rebuilds_empty (started : Started emptyDataset system) :
    Rebuilds config known apply emptyDataset system [] [] ⟨[], 0, false⟩ where
  on := started.on
  aofFd := started.aofFd
  append := rfl
  atEnd := rfl
  before := by
    rw [started.incrs]
    exact .nil
  tail := by
    rw [started.fresh.empty]
    exact ⟨rfl, by simp, idle_createAOFClient⟩
  agrees := started.fresh.agrees _
  dataset := started.base
  child := by
    intro snapshot some
    rw [started.child] at some
    cases some
end Run

/-- The dataset that is the list of the commands that were applied. -/
def applied (dataset : List (Nat × List Sds)) (command : Nat × List Sds) : List (Nat × List Sds) := dataset ++ [command]

def startedSystem : System (List (Nat × List Sds)) := ⟨freshServer, [], none, [], none⟩

theorem started_startedSystem : Started [] startedSystem := ⟨rfl, fresh_freshServer, rfl, rfl, rfl, rfl⟩

/-- A command in database 3, a rewrite whose flush has these results, another command, and the end of the rewrite. -/
def rewriteEvents (writes : List WriteResult) : List (Event sampleConfig) :=
  [.write 1 false [⟨⟨3, by decide⟩, pingArgv⟩], .rewrite ⟨false, true, envOf writes, true, true, true⟩,
    .write 2 false [⟨⟨3, by decide⟩, pingArgv⟩, ⟨⟨5, by decide⟩, pingArgv⟩], .done ⟨true, true, true, 0⟩]

theorem fine_rewriteEvents {writes : List WriteResult} (whole : WritesWhole writes) :
    ∀ event ∈ rewriteEvents writes, event.Fine pingKnown := by
  have ping := logged_pingArgv
  simp only [rewriteEvents, forall_mem_cons, Event.Fine, ping]
  exact ⟨by simp, whole, by simp, by simp⟩

end Redis.Aof

import Redis.Proof.Aof.Records

namespace Redis.Aof
open Foundation List
variable {config : Config} {known : Sds → Bool}
variable {client : FakeClient} {records : List Record} {server : Server}

/-- The database of a command when the database before it is known. -/
def Feed.db (feed : Feed config) (db : Nat) : Nat := (feed.dictid.map Fin.val).getD db

/-- The command is known and has no meaning of its own for the loader. -/
def Feed.Logged (known : Sds → Bool) (feed : Feed config) : Prop := lookupCommand known feed.argv.args = some .other

/-- A log has single commands and transactions. -/
inductive Entry (config : Config) where
  | single (feed : Feed config)
  | group (multi : Int64 × Option (Fin config.dbnum)) (commands : List (Feed config))
      (exec : Int64 × Option (Fin config.dbnum))

def Entry.feeds : Entry config → List (Feed config)
  | .single feed => [feed]
  | .group multi commands exec => ⟨multi.1, multi.2, multiArgv⟩ :: (commands ++ [⟨exec.1, exec.2, execArgv⟩])

def Entry.Logged (known : Sds → Bool) : Entry config → Prop
  | .single feed => feed.Logged known
  | .group _ commands _ => ∀ feed ∈ commands, feed.Logged known

/-- The commands with their databases, and the database after them. -/
def executedFeeds : Nat → List (Feed config) → List (Nat × List Sds) × Nat
  | db, [] => ([], db)
  | db, feed :: feeds =>
    let rest := executedFeeds (feed.db db) feeds
    ((feed.db db, feed.argv.args) :: rest.1, rest.2)

/-- The commands of an entry with their databases. -/
def Entry.executed (db : Nat) : Entry config → List (Nat × List Sds) × Nat
  | .single feed => executedFeeds db [feed]
  | .group multi commands exec =>
    let body := executedFeeds ((multi.2.map Fin.val).getD db) commands
    (body.1, (exec.2.map Fin.val).getD body.2)

/-- The commands of a log with their databases, and the database after them. -/
def executedBy : Nat → List (Entry config) → List (Nat × List Sds) × Nat
  | db, [] => ([], db)
  | db, entry :: entries =>
    let first := entry.executed db
    let rest := executedBy first.2 entries
    (first.1 ++ rest.1, rest.2)

def feedEntries (server : Server) (entries : List (Entry config)) : Server := feedAll server (entries.flatMap Entry.feeds)

/-- The annotation before a command. -/
def stampRecords (config : Config) (server : Server) (unixtime : Int64) : List Record :=
  if config.aofTimestampEnabled ∧ server.aofCurTimestamp < unixtime then [.stamp unixtime] else []

theorem length_decimal_db (db : Fin config.dbnum) : (decimal db.val).length < 2 ^ 63 := by
  have small := db.isLt.trans config.dbnumInt
  have length : (decimal db.val).length ≤ 10 := length_decimal_le 9 (by omega)
  omega

def selectArgv (db : Fin config.dbnum) : Argv where
  args := [ascii "SELECT", decimal db.val]
  nonempty := by simp
  argc := by simp
  lens := by
    have length := length_decimal_db db
    have name : (ascii "SELECT").length = 6 := by decide
    intro s member
    rcases mem_cons.mp member with rfl | member
    · omega
    · rw [mem_singleton.mp member]
      exact length

/-- The command `SELECT` before a command. -/
def selectRecords (server : Server) : Option (Fin config.dbnum) → List Record
  | none => []
  | some db => if server.aofSelectedDb = some db.val then [] else [.command (selectArgv db)]

/-- The records of one command. -/
def feedRecords (server : Server) (feed : Feed config) : List Record :=
  stampRecords config server feed.unixtime ++ (selectRecords server feed.dictid ++ [.command feed.argv])

theorem feedTimestamp_eq (config : Config) (server : Server) (unixtime : Int64) : ∃ timestamp,
    feedTimestamp config server unixtime =
      ((stampRecords config server unixtime).flatMap Record.bytes, { server with aofCurTimestamp := timestamp }) := by
  unfold feedTimestamp stampRecords genAofTimestampAnnotationIfNeeded
  by_cases enabled : config.aofTimestampEnabled = true
  · by_cases later : server.aofCurTimestamp < unixtime
    · refine ⟨unixtime, ?_⟩
      simp [enabled, later, Record.bytes]
    · refine ⟨server.aofCurTimestamp, ?_⟩
      simp [later]
  · refine ⟨server.aofCurTimestamp, ?_⟩
    simp [enabled]

theorem selectArgv_bytes (db : Fin config.dbnum) : (Record.command (selectArgv db)).bytes =
    ascii "*2\r\n$6\r\nSELECT\r\n$" ++ decimal (decimal db.val).length ++ crlf ++ decimal db.val ++ crlf := by
  have two : decimal 2 = [50] := decimal_of_lt (by decide)
  have six : decimal 6 = [54] := decimal_of_lt (by decide)
  have text : ascii "*2\r\n$6\r\nSELECT\r\n$" = 42 :: ([50] ++ crlf) ++ (36 :: ([54] ++ crlf) ++
      (ascii "SELECT" ++ crlf)) ++ [36] := by decide
  have name : (ascii "SELECT").length = 6 := by decide
  rw [Record.bytes, catAppendOnlyGenericCommand, text]
  simp [selectArgv, bulk, two, six, name]

theorem feedSelect_eq (server : Server) (dictid : Option (Fin config.dbnum)) :
    feedSelect server (dictid.map Fin.val) = ((selectRecords server dictid).flatMap Record.bytes,
      { server with aofSelectedDb := ((dictid.map Fin.val).map some).getD server.aofSelectedDb }) := by
  cases dictid with
  | none => rfl
  | some db =>
    unfold feedSelect selectRecords
    dsimp only [Option.map_some]
    split_ifs with same
    · rw [← same]
      rfl
    · rw [flatMap_cons, flatMap_nil, append_nil, selectArgv_bytes]
      rfl

theorem feedAppendOnlyFile_records (server : Server) (feed : Feed config) (accepts : server.accepts = true) :
    ∃ timestamp, feedAppendOnlyFile config feed.unixtime server feed.dictid feed.argv = { server with
        aofBuf := server.aofBuf ++ (feedRecords server feed).flatMap Record.bytes
        aofSelectedDb := ((feed.dictid.map Fin.val).map some).getD server.aofSelectedDb
        aofCurTimestamp := timestamp } := by
  obtain ⟨timestamp, stamped⟩ := feedTimestamp_eq config server feed.unixtime
  have selected := feedSelect_eq { server with aofCurTimestamp := timestamp } feed.dictid
  have same : selectRecords { server with aofCurTimestamp := timestamp } feed.dictid =
      selectRecords server feed.dictid := by cases feed.dictid <;> rfl
  rw [feedAppendOnlyFile, feedBuffer, stamped]
  dsimp only
  rw [selected, same]
  split_ifs with taken
  · rw [feedRecords]
    simp [Record.bytes, catAppendOnlyGenericCommand]
  · exact absurd accepts taken

/-- The records of a sequence of calls. -/
def recordsOf (server : Server) : List (Feed config) → List Record
  | [] => []
  | feed :: feeds => feedRecords server feed ++
      recordsOf (feedAppendOnlyFile config feed.unixtime server feed.dictid feed.argv) feeds

theorem feedAll_records (feeds : List (Feed config)) (server : Server) (accepts : server.accepts = true) :
    (feedAll server feeds).aofBuf = server.aofBuf ++ (recordsOf server feeds).flatMap Record.bytes ∧
      (feedAll server feeds).accepts = true ∧ (feedAll server feeds).aofFd = server.aofFd ∧
      (feedAll server feeds).aofState = server.aofState := by
  induction feeds generalizing server with
  | nil => exact ⟨by simp [feedAll, recordsOf], accepts, rfl, rfl⟩
  | cons feed feeds ih =>
    obtain ⟨timestamp, next⟩ := feedAppendOnlyFile_records server feed accepts
    obtain ⟨buffer, accepts', frame⟩ := ih (feedAppendOnlyFile config feed.unixtime server feed.dictid feed.argv)
      (by rw [next]; exact accepts)
    rw [recordsOf, flatMap_append, ← append_assoc, show feedAll server (feed :: feeds) =
      feedAll (feedAppendOnlyFile config feed.unixtime server feed.dictid feed.argv) feeds from rfl]
    refine ⟨?_, accepts', ?_⟩
    · rw [buffer, next]
    · rwa [next] at frame ⊢

/-- What one record does to the fake client. -/
def deliverClient (config : Config) (known : Sds → Bool) (client : FakeClient) : Record → FakeClient
  | .stamp _ => client
  | .command argv =>
    match lookupCommand known argv.args with
    | none => client
    | some cmd => runCommand config client cmd argv.args

/-- What one record does when it is executed outside of a transaction or at its end. -/
def runRecord (config : Config) (known : Sds → Bool) (client : FakeClient) : Record → FakeClient
  | .stamp _ => client
  | .command argv =>
    match lookupCommand known argv.args with
    | none => client
    | some cmd => callQueued config client (cmd, argv.args)

/-- A record that executes nothing when it is run. -/
def Record.Lead (known : Sds → Bool) : Record → Prop
  | .stamp _ => True
  | .command argv => lookupCommand known argv.args = some .selectCommand

/-- A record that neither starts nor ends a transaction. -/
def Record.Plain (known : Sds → Bool) : Record → Prop
  | .stamp _ => True
  | .command argv => lookupCommand known argv.args = some .selectCommand ∨ lookupCommand known argv.args = some .other

theorem Record.Lead.plain {record : Record} (lead : record.Lead known) : record.Plain known := by
  cases record with
  | stamp timestamp => trivial
  | command argv => exact .inl lead

/-- The commands that are queued for some records. -/
def queueOf (known : Sds → Bool) (records : List Record) : List (Proc × List Sds) :=
  records.filterMap fun record =>
    match record with
    | .stamp _ => none
    | .command argv => (lookupCommand known argv.args).map fun cmd => (cmd, argv.args)

/-- The fake client after some commands outside of a transaction. -/
def FakeClient.after (client : FakeClient) (result : List (Nat × List Sds) × Nat) : FakeClient :=
  { client with db := result.2, executed := client.executed ++ result.1 }

theorem callQueued_frame (client : FakeClient) (command : Proc × List Sds) :
    (callQueued config client command).multi = client.multi ∧
      (callQueued config client command).mstate = client.mstate := by
  unfold callQueued selectCommand
  cases command.1 with
  | multiCommand => exact ⟨rfl, rfl⟩
  | execCommand => exact ⟨rfl, rfl⟩
  | selectCommand =>
    dsimp only
    split
    · split_ifs <;> exact ⟨rfl, rfl⟩
    · exact ⟨rfl, rfl⟩
  | other => exact ⟨rfl, rfl⟩

theorem runRecord_frame (client : FakeClient) (record : Record) :
    (runRecord config known client record).multi = client.multi ∧
      (runRecord config known client record).mstate = client.mstate := by
  unfold runRecord
  split
  · exact ⟨rfl, rfl⟩
  · split
    · exact ⟨rfl, rfl⟩
    · exact callQueued_frame client _

theorem deliverClient_plain {record : Record} (plain : record.Plain known) (outside : client.multi = false) :
    deliverClient config known client record = runRecord config known client record := by
  cases record with
  | stamp timestamp => rfl
  | command argv =>
    rcases plain with select | other
    · simp [deliverClient, runRecord, select, runCommand, outside, callQueued]
    · simp [deliverClient, runRecord, other, runCommand, outside, callQueued]

theorem foldl_deliverClient_plain (plain : ∀ record ∈ records, record.Plain known) (outside : client.multi = false) :
    records.foldl (deliverClient config known) client = records.foldl (runRecord config known) client := by
  induction records generalizing client with
  | nil => rfl
  | cons record records ih =>
    rw [foldl_cons, deliverClient_plain (plain record (by simp)) outside]
    exact ih (forall_mem_cons.mp plain).2
      ((runRecord_frame client record).1.trans outside)

theorem foldl_deliverClient_queued (plain : ∀ record ∈ records, record.Plain known) (inside : client.multi = true) :
    records.foldl (deliverClient config known) client =
      { client with mstate := client.mstate ++ queueOf known records } := by
  induction records generalizing client with
  | nil => simp [queueOf]
  | cons record records ih =>
    rw [foldl_cons]
    have later := fun other member => plain other (mem_cons_of_mem record member)
    have first := plain record (by simp)
    cases record with
    | stamp timestamp => exact ih later inside
    | command argv =>
      obtain ⟨cmd, looked, queued⟩ : ∃ cmd, lookupCommand known argv.args = some cmd ∧ cmd ≠ .execCommand := by
        rcases first with select | other
        · exact ⟨_, select, by decide⟩
        · exact ⟨_, other, by decide⟩
      have inside' : ({ client with mstate := client.mstate ++ [(cmd, argv.args)] } : FakeClient).multi = true := inside
      have step : deliverClient config known client (.command argv) =
          { client with mstate := client.mstate ++ [(cmd, argv.args)] } := by
        simp [deliverClient, looked, runCommand, inside, queued]
      rw [step, ih later inside']
      simp [queueOf, looked]

theorem foldl_callQueued (client : FakeClient) (records : List Record) :
    (queueOf known records).foldl (callQueued config) client = records.foldl (runRecord config known) client := by
  induction records generalizing client with
  | nil => rfl
  | cons record records ih =>
    rw [foldl_cons, ← ih]
    cases record with
    | stamp timestamp => rfl
    | command argv =>
      rw [runRecord]
      cases looked : lookupCommand known argv.args with
      | none => simp [queueOf, looked]
      | some cmd => simp [queueOf, looked]

theorem lookupCommand_select (db : Fin config.dbnum) :
    lookupCommand known (selectArgv db).args = some .selectCommand := by
  have name : (ascii "SELECT").map tolower = ascii "select" := by decide
  simp only [lookupCommand, selectArgv, headD_cons, name]
  rw [if_neg (by decide), if_neg (by decide), if_pos trivial]

/-- The server knows the database that the loader is in, once it has selected one. -/
def Agrees (server : Server) (client : FakeClient) : Prop := ∀ db, server.aofSelectedDb = some db → client.db = db

theorem foldl_runRecord_select (feed : Feed config) (agrees : Agrees server client) :
    (stampRecords config server feed.unixtime ++ selectRecords server feed.dictid).foldl (runRecord config known) client =
      { client with db := feed.db client.db } := by
  have stamped : (stampRecords config server feed.unixtime).foldl (runRecord config known) client = client := by
    unfold stampRecords
    split_ifs <;> rfl
  rw [foldl_append, stamped, Feed.db]
  cases feed.dictid with
  | none => rfl
  | some db =>
    rw [selectRecords]
    split_ifs with selected
    · have own := agrees db.val selected
      rw [Option.map_some, ← own]
      rfl
    · have small := db.isLt
      have int := config.dbnumInt
      have text : decimal db.val = signedDecimal db.val := by
        rw [signedDecimal, if_neg (by omega), Int.toNat_natCast]
      have parsed : Listpack.lpStringToInt64 (decimal db.val) = some (db.val : Int) := by
        rw [text]
        exact Listpack.lpStringToInt64_eq_some_iff.mpr ⟨rfl, by omega, by omega⟩
      rw [foldl_cons, runRecord, lookupCommand_select]
      dsimp only [callQueued]
      rw [selectCommand, selectArgv]
      simp [parsed]

theorem lead_select (unixtime : Int64) (dictid : Option (Fin config.dbnum)) :
    ∀ record ∈ stampRecords config server unixtime ++ selectRecords server dictid, record.Lead known := by
  intro record member
  rcases mem_append.mp member with stamp | select
  · unfold stampRecords at stamp
    split_ifs at stamp
    · rw [mem_singleton.mp stamp]
      trivial
    · cases stamp
  · cases dictid with
    | none => cases select
    | some db =>
      rw [selectRecords] at select
      split_ifs at select
      · cases select
      · rw [mem_singleton.mp select]
        exact lookupCommand_select db

theorem plain_select (unixtime : Int64) (dictid : Option (Fin config.dbnum)) :
    ∀ record ∈ stampRecords config server unixtime ++ selectRecords server dictid, record.Plain known :=
  fun record member => (lead_select unixtime dictid record member).plain

theorem Agrees.feed {client client' : FakeClient} {feed : Feed config} (accepts : server.accepts = true)
    (agrees : Agrees server client) (moved : client'.db = feed.db client.db) :
    Agrees (feedAppendOnlyFile config feed.unixtime server feed.dictid feed.argv) client' := by
  obtain ⟨timestamp, next⟩ := feedAppendOnlyFile_records server feed accepts
  intro db selected
  rw [next] at selected
  rw [moved, Feed.db]
  cases dictid : feed.dictid with
  | none =>
    rw [dictid] at selected
    exact agrees db selected
  | some own =>
    rw [dictid] at selected
    exact Option.some.inj selected

theorem FakeClient.after_after (client : FakeClient) (first second : List (Nat × List Sds) × Nat) :
    (client.after first).after second = client.after (first.1 ++ second.1, second.2) := by
  simp [FakeClient.after]

theorem foldl_runRecord_feeds {feeds : List (Feed config)} (logged : ∀ feed ∈ feeds, feed.Logged known)
    (accepts : server.accepts = true) (agrees : Agrees server client) :
    (recordsOf server feeds).foldl (runRecord config known) client = client.after (executedFeeds client.db feeds) ∧
      Agrees (feedAll server feeds) (client.after (executedFeeds client.db feeds)) := by
  induction feeds generalizing server client with
  | nil =>
    refine ⟨?_, agrees⟩
    simp [recordsOf, executedFeeds, FakeClient.after]
  | cons feed feeds ih =>
    obtain ⟨timestamp, next⟩ := feedAppendOnlyFile_records server feed accepts
    have accepts' : (feedAppendOnlyFile config feed.unixtime server feed.dictid feed.argv).accepts = true := by
      rw [next]
      exact accepts
    have first : (feedRecords server feed).foldl (runRecord config known) client =
        client.after ([(feed.db client.db, feed.argv.args)], feed.db client.db) := by
      have own : lookupCommand known feed.argv.args = some .other := logged feed (by simp)
      rw [feedRecords, ← append_assoc, foldl_append, foldl_runRecord_select feed agrees, foldl_cons,
        foldl_nil, runRecord, own]
      rfl
    have agrees' : Agrees (feedAppendOnlyFile config feed.unixtime server feed.dictid feed.argv)
        (client.after ([(feed.db client.db, feed.argv.args)], feed.db client.db)) := agrees.feed accepts rfl
    obtain ⟨rest, agrees''⟩ := ih (forall_mem_cons.mp logged).2 accepts' agrees'
    have whole : (client.after ([(feed.db client.db, feed.argv.args)], feed.db client.db)).after
        (executedFeeds (feed.db client.db) feeds) = client.after (executedFeeds client.db (feed :: feeds)) := by
      rw [FakeClient.after_after]
      rfl
    rw [recordsOf, foldl_append, first, rest]
    exact ⟨whole, whole ▸ agrees''⟩

theorem plain_feeds {feeds : List (Feed config)} (logged : ∀ feed ∈ feeds, feed.Logged known) (server : Server) :
    ∀ record ∈ recordsOf server feeds, record.Plain known := by
  induction feeds generalizing server with
  | nil => simp [recordsOf]
  | cons feed feeds ih =>
    intro record member
    rw [recordsOf, feedRecords, ← append_assoc] at member
    rcases mem_append.mp member with own | later
    · rcases mem_append.mp own with select | command
      · exact plain_select feed.unixtime feed.dictid record select
      · rw [mem_singleton.mp command]
        exact .inr (logged feed (by simp))
    · exact ih (forall_mem_cons.mp logged).2 _ record later

theorem recordsOf_append (server : Server) (first second : List (Feed config)) :
    recordsOf server (first ++ second) = recordsOf server first ++ recordsOf (feedAll server first) second := by
  induction first generalizing server with
  | nil => rfl
  | cons feed first ih =>
    rw [cons_append, recordsOf, recordsOf, ih, append_assoc]
    rfl

theorem lookupCommand_multi : lookupCommand known multiArgv.args = some .multiCommand := by
  have name : (multiArgv.args.headD []).map tolower = ascii "multi" := by decide
  rw [lookupCommand, name, if_pos rfl]

theorem lookupCommand_exec : lookupCommand known execArgv.args = some .execCommand := by
  have name : (execArgv.args.headD []).map tolower = ascii "exec" := by decide
  rw [lookupCommand, name, if_neg (by decide), if_pos rfl]

/-- A client between two entries of the log. -/
structure Idle (client : FakeClient) : Prop where
  multi : client.multi = false
  mstate : client.mstate = []

theorem deliverClient_exec (inside : client.multi = true) (queued : client.mstate = queueOf known records) :
    deliverClient config known client (.command execArgv) =
      { records.foldl (runRecord config known) client with multi := false, mstate := [] } := by
  simp only [deliverClient, lookupCommand_exec, runCommand, inside, ne_eq, not_true_eq_false, and_false, if_false,
    execCommand, Bool.not_true, Bool.false_eq_true, queued, foldl_callQueued]

/-- The records between the start and the end of a transaction. -/
def groupQueue (started : Server) (commands : List (Feed config)) (exec : Int64 × Option (Fin config.dbnum)) :
    List Record :=
  recordsOf started commands ++ (stampRecords config (feedAll started commands) exec.1 ++
    selectRecords (feedAll started commands) exec.2)

theorem recordsOf_group (server : Server) (multi : Int64 × Option (Fin config.dbnum)) (commands : List (Feed config))
    (exec : Int64 × Option (Fin config.dbnum)) :
    recordsOf server (Entry.group multi commands exec).feeds =
      stampRecords config server multi.1 ++ selectRecords server multi.2 ++ .command multiArgv ::
        (groupQueue (feedAppendOnlyFile config multi.1 server multi.2 multiArgv) commands exec ++
          [.command execArgv]) := by
  rw [Entry.feeds, recordsOf, recordsOf_append, groupQueue]
  simp [recordsOf, feedRecords]

theorem plain_groupQueue {commands : List (Feed config)} (logged : ∀ feed ∈ commands, feed.Logged known)
    (started : Server) (exec : Int64 × Option (Fin config.dbnum)) :
    ∀ record ∈ groupQueue started commands exec, record.Plain known := by
  intro record member
  rcases mem_append.mp member with command | select
  · exact plain_feeds logged started record command
  · exact plain_select exec.1 exec.2 record select

/-- Behind the start of a transaction the commands are only queued. -/
theorem foldl_deliverClient_started {queue : List Record} (plain : ∀ record ∈ queue, record.Plain known)
    (idle : Idle client) :
    (.command multiArgv :: queue).foldl (deliverClient config known) client =
      { client with multi := true, mstate := queueOf known queue } := by
  have begun : deliverClient config known client (.command multiArgv) = { client with multi := true } := by
    simp [deliverClient, lookupCommand_multi, runCommand, idle.multi]
  rw [foldl_cons, begun, foldl_deliverClient_queued plain rfl, idle.mstate]
  rfl

/-- The loader executes the commands of an entry, once each and in their databases. -/
theorem deliver_entry {entry : Entry config} (logged : entry.Logged known) (accepts : server.accepts = true)
    (idle : Idle client) (agrees : Agrees server client) :
    (recordsOf server entry.feeds).foldl (deliverClient config known) client =
        client.after (entry.executed client.db) ∧
      Agrees (feedAll server entry.feeds) (client.after (entry.executed client.db)) := by
  cases entry with
  | single feed =>
    have logged' : ∀ other ∈ [feed], Feed.Logged known other := by simpa [Entry.Logged] using logged
    obtain ⟨ran, agrees'⟩ := foldl_runRecord_feeds logged' accepts agrees
    rw [Entry.feeds, foldl_deliverClient_plain (plain_feeds logged' server) idle.multi, ran]
    exact ⟨rfl, agrees'⟩
  | group multi commands exec =>
    let first : Feed config := ⟨multi.1, multi.2, multiArgv⟩
    let last : Feed config := ⟨exec.1, exec.2, execArgv⟩
    let started := feedAppendOnlyFile config first.unixtime server first.dictid first.argv
    let queue := groupQueue started commands exec
    let body := executedFeeds (first.db client.db) commands
    have accepts' : started.accepts = true := (feedAll_records [first] server accepts).2.1
    have accepts'' : (feedAll started commands).accepts = true := (feedAll_records commands started accepts').2.1
    have opened : (stampRecords config server first.unixtime ++ selectRecords server first.dictid).foldl
        (deliverClient config known) client = { client with db := first.db client.db } := by
      rw [foldl_deliverClient_plain (plain_select _ _) idle.multi, foldl_runRecord_select first agrees]
    let waiting : FakeClient := { client with db := first.db client.db, multi := true, mstate := queueOf known queue }
    have queued : (.command multiArgv :: queue).foldl (deliverClient config known)
        { client with db := first.db client.db } = waiting :=
      foldl_deliverClient_started (plain_groupQueue logged started exec) ⟨idle.multi, idle.mstate⟩
    have agrees' : Agrees started waiting := agrees.feed accepts rfl
    obtain ⟨ran, agrees''⟩ := foldl_runRecord_feeds logged accepts' agrees'
    have ended : queue.foldl (runRecord config known) waiting = { waiting.after body with db := last.db body.2 } := by
      rw [show queue = recordsOf started commands ++ _ from rfl, foldl_append, ran]
      exact foldl_runRecord_select last agrees''
    have result : { queue.foldl (runRecord config known) waiting with multi := false, mstate := [] } =
        client.after ((Entry.group multi commands exec).executed client.db) := by
      rw [ended]
      simp only [FakeClient.after, FakeClient.mk.injEq, idle.multi, idle.mstate, true_and]
      exact ⟨rfl, rfl⟩
    refine ⟨?_, ?_⟩
    · rw [recordsOf_group, foldl_append, opened, ← cons_append, foldl_append, queued, foldl_cons,
        foldl_nil, deliverClient_exec rfl rfl, result]
    · have fed : feedAll server (Entry.group multi commands exec).feeds =
          feedAppendOnlyFile config last.unixtime (feedAll started commands) last.dictid last.argv := by
        rw [Entry.feeds, feedAll, foldl_cons, foldl_append]
        rfl
      rw [fed]
      exact agrees''.feed accepts'' rfl

theorem Idle.after (idle : Idle client) (result : List (Nat × List Sds) × Nat) :
    Idle (client.after result) := ⟨idle.multi, idle.mstate⟩

theorem deliver_entries {entries : List (Entry config)} (logged : ∀ entry ∈ entries, entry.Logged known)
    (accepts : server.accepts = true) (idle : Idle client) (agrees : Agrees server client) :
    (recordsOf server (entries.flatMap Entry.feeds)).foldl (deliverClient config known) client =
        client.after (executedBy client.db entries) ∧
      Agrees (feedEntries server entries) (client.after (executedBy client.db entries)) := by
  induction entries generalizing server client with
  | nil =>
    have same : client.after (executedBy client.db ([] : List (Entry config))) = client := by
      simp [executedBy, FakeClient.after]
    rw [same]
    exact ⟨rfl, agrees⟩
  | cons entry entries ih =>
    obtain ⟨first, agrees'⟩ := deliver_entry (logged entry (by simp)) accepts idle agrees
    have later := fun other member => logged other (mem_cons_of_mem entry member)
    obtain ⟨rest, agrees''⟩ := ih later (feedAll_records entry.feeds server accepts).2.1 (idle.after _) agrees'
    have fed : feedEntries server (entry :: entries) = feedEntries (feedAll server entry.feeds) entries := by
      rw [feedEntries, flatMap_cons, feedAll, foldl_append]
      rfl
    rw [FakeClient.after_after] at rest agrees''
    rw [flatMap_cons, recordsOf_append, foldl_append, first, rest, fed]
    exact ⟨rfl, agrees''⟩

/-- The first records of a log are the records of some entries and a part of the records of the next one. -/
theorem exists_entries {entries : List (Entry config)} {front back : List Record}
    (layout : recordsOf server (entries.flatMap Entry.feeds) = front ++ back) (some : back ≠ []) :
    ∃ done entry later inside more tail, entries = done ++ entry :: later ∧ more ≠ [] ∧
      front = recordsOf server (done.flatMap Entry.feeds) ++ inside ∧ back = more ++ tail ∧
      recordsOf (feedEntries server done) entry.feeds = inside ++ more := by
  induction entries generalizing server front with
  | nil =>
    rw [flatMap_nil, recordsOf, nil_eq, append_eq_nil_iff] at layout
    exact absurd layout.2 some
  | cons entry entries ih =>
    rw [flatMap_cons, recordsOf_append, append_eq_append_iff] at layout
    -- the cut is behind this entry, or inside of it
    have behind : ∀ beyond, front = recordsOf server entry.feeds ++ beyond →
        recordsOf (feedAll server entry.feeds) (entries.flatMap Entry.feeds) = beyond ++ back →
        ∃ done other later inside more tail, entry :: entries = done ++ other :: later ∧ more ≠ [] ∧
          front = recordsOf server (done.flatMap Entry.feeds) ++ inside ∧ back = more ++ tail ∧
          recordsOf (feedEntries server done) other.feeds = inside ++ more := by
      intro beyond own rest
      obtain ⟨done, other, later, inside, more, tail, rfl, more', rfl, layout', whole⟩ := ih rest
      refine ⟨entry :: done, other, later, inside, more, tail, rfl, more', ?_, layout', ?_⟩
      · rw [own, flatMap_cons, recordsOf_append, append_assoc]
      · rw [← whole, feedEntries, feedEntries, flatMap_cons, feedAll, feedAll, feedAll, foldl_append]
    rcases layout with ⟨beyond, own, rest⟩ | ⟨more, own, rest⟩
    · exact behind beyond own rest
    · by_cases whole : more = []
      · rw [whole, append_nil] at own
        rw [whole, nil_append] at rest
        exact behind [] (by rw [append_nil, own]) (by rw [nil_append, rest])
      · exact ⟨[], entry, entries, front, more, _, rfl, whole, rfl, rest, own⟩

/-- The first records of an entry either stand before its start, or they start a transaction. -/
theorem partial_entry {entry : Entry config} (logged : entry.Logged known) {inside more : List Record}
    (some : more ≠ []) (layout : recordsOf server entry.feeds = inside ++ more) :
    (∀ record ∈ inside, record.Lead known) ∨
    ∃ lead queue, inside = lead ++ .command multiArgv :: queue ∧ (∀ record ∈ lead, record.Lead known) ∧
      ∀ record ∈ queue, record.Plain known := by
  have shorter : ∀ {records : List Record} {last : Record}, records ++ [last] = inside ++ more →
      records = inside ++ more.dropLast := by
    intro records last whole
    have cut := congrArg List.dropLast whole
    rwa [dropLast_concat, dropLast_append_of_ne_nil some] at cut
  cases entry with
  | single feed =>
    rw [Entry.feeds, recordsOf, recordsOf, append_nil, feedRecords, ← append_assoc] at layout
    left
    intro record member
    apply lead_select feed.unixtime feed.dictid record
    rw [shorter layout]
    exact mem_append_left _ member
  | group multi commands exec =>
    rw [recordsOf_group, ← cons_append, ← append_assoc] at layout
    rcases append_eq_append_iff.mp (shorter layout) with ⟨beyond, own, rest⟩ | ⟨rest, own, _⟩
    · cases beyond with
      | nil =>
        rw [append_nil] at own
        rw [own]
        exact .inl (lead_select multi.1 multi.2)
      | cons record queue =>
        obtain ⟨rfl, queue'⟩ := List.cons.inj rest
        refine .inr ⟨_, queue, own, lead_select multi.1 multi.2, ?_⟩
        intro record member
        apply plain_groupQueue logged _ exec record
        rw [queue']
        exact mem_append_left _ member
    · left
      intro record member
      apply lead_select multi.1 multi.2 record
      rw [own]
      exact mem_append_left _ member

theorem foldl_deliverClient_lead (lead : ∀ record ∈ records, record.Lead known) (idle : Idle client) :
    Idle (records.foldl (deliverClient config known) client) ∧
      (records.foldl (deliverClient config known) client).executed = client.executed := by
  induction records generalizing client with
  | nil => exact ⟨idle, rfl⟩
  | cons record records ih =>
    have own := lead record (by simp)
    have frame := @runRecord_frame config known client record
    have silent : (runRecord config known client record).executed = client.executed := by
      cases record with
      | stamp timestamp => rfl
      | command argv =>
        have looked : lookupCommand known argv.args = some .selectCommand := own
        simp only [runRecord, looked, callQueued, selectCommand]
        split
        · split_ifs <;> rfl
        · rfl
    rw [foldl_cons, deliverClient_plain own.plain idle.multi]
    obtain ⟨idle', executed⟩ := ih (forall_mem_cons.mp lead).2
      ⟨frame.1.trans idle.multi, frame.2.trans idle.mstate⟩
    exact ⟨idle', executed.trans silent⟩

end Redis.Aof

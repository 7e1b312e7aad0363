/-
This file proves what the loader makes of a log that was cut at any byte, and when the file that it leaves on disk
can be appended to.
-/

import Redis.Proof.Aof.Log
import Redis.Proof.Aof.Tail

namespace Redis.Aof
open Foundation List
variable {config : Config} {known : Sds → Bool} {server : Server} {entry : Entry config}
  {entries : List (Entry config)} {record : Record} {records queue kept front back : List Record} {part : Sds}

theorem foldl_deliver_client (records : List Record) (progress : Progress) :
    (records.foldl (Progress.deliver config known) progress).client =
      records.foldl (deliverClient config known) progress.client := by
  induction records generalizing progress with
  | nil => rfl
  | cons record records ih =>
    rw [foldl_cons, foldl_cons, ih]
    cases record with
    | stamp timestamp => rfl
    | command argv =>
      rw [Progress.deliver, deliverClient]
      cases lookupCommand known argv.args <;> rfl

theorem foldl_deliver_position (found : ∀ record ∈ records, record.Known known)
    (progress : Progress) : (records.foldl (Progress.deliver config known) progress).position =
      progress.position + (records.flatMap Record.bytes).length := by
  induction records generalizing progress with
  | nil => rfl
  | cons record records ih =>
    have step : (progress.deliver config known record).position = progress.position + record.bytes.length := by
      cases record with
      | stamp timestamp => rfl
      | command argv =>
        obtain ⟨cmd, looked⟩ := Option.isSome_iff_exists.mp (found _ (mem_cons_self))
        simp only [Progress.deliver, looked]
    rw [foldl_cons, ih (forall_mem_cons.mp found).2, step, flatMap_cons, length_append, add_assoc]

/-- The offset `valid_up_to` stands behind the last whole command. -/
theorem exists_validUpTo (found : ∀ record ∈ records, record.Known known) : ∃ kept rest, records = kept ++ rest ∧
      (records.foldl (Progress.deliver config known) .start).validUpTo = (kept.flatMap Record.bytes).length ∧
      kept.foldl (deliverClient config known) createAOFClient =
        records.foldl (deliverClient config known) createAOFClient := by
  induction records using List.reverseRecOn with
  | nil => exact ⟨[], [], rfl, rfl, rfl⟩
  | append_singleton records record ih =>
    have before := fun other member => found other (mem_append_left [record] member)
    cases record with
    | stamp timestamp =>
      obtain ⟨kept, rest, layout, offset, client⟩ := ih before
      refine ⟨kept, rest ++ [.stamp timestamp], by rw [layout, append_assoc], ?_, ?_⟩
      · rw [foldl_append, ← offset]
        rfl
      · rw [foldl_append, client]
        rfl
    | command argv =>
      obtain ⟨cmd, looked⟩ := Option.isSome_iff_exists.mp (found (.command argv) (by simp))
      refine ⟨records ++ [.command argv], [], by rw [append_nil], ?_, rfl⟩
      have position := @foldl_deliver_position config known records before .start
      have last : ∀ progress : Progress, (progress.deliver config known (.command argv)).validUpTo =
          progress.position + (Record.command argv).bytes.length := by
        intro progress
        simp only [Progress.deliver, looked]
      rw [foldl_append, foldl_cons, foldl_nil, last, position, flatMap_append, length_append]
      simp [Progress.start]

theorem foldl_deliver_validBeforeMulti (plain : ∀ record ∈ queue, record.Plain known) (progress : Progress) :
    (queue.foldl (Progress.deliver config known) progress).validBeforeMulti = progress.validBeforeMulti := by
  induction queue generalizing progress with
  | nil => rfl
  | cons record queue ih =>
    rw [foldl_cons, ih (forall_mem_cons.mp plain).2]
    cases record with
    | stamp timestamp => rfl
    | command argv =>
      rcases plain _ mem_cons_self with select | other
      · simp [Progress.deliver, select]
      · simp [Progress.deliver, other]

theorem validBeforeMulti_started (plain : ∀ record ∈ queue, record.Plain known) :
    ((records ++ .command multiArgv :: queue).foldl (Progress.deliver config known) .start).validBeforeMulti =
      (records.foldl (Progress.deliver config known) .start).validUpTo := by
  rw [foldl_append, foldl_cons, foldl_deliver_validBeforeMulti plain]
  simp [Progress.deliver, lookupCommand_multi]

theorem take_kept {rest : List Record} (layout : records = kept ++ rest) (part : Sds) :
    (records.flatMap Record.bytes ++ part).take (kept.flatMap Record.bytes).length = kept.flatMap Record.bytes := by
  rw [layout, flatMap_append, append_assoc, take_left]

theorem Record.Plain.found (plain : record.Plain known) : record.Known known := by
  cases record with
  | stamp timestamp => trivial
  | command argv => rcases plain with select | other <;> simp [Record.Known, *]

theorem known_multi : (Record.command multiArgv).Known known := by
  rfl

theorem known_exec : (Record.command execArgv).Known known := by
  rfl

theorem known_entry (logged : entry.Logged known) (server : Server) :
    ∀ record ∈ recordsOf server entry.feeds, record.Known known := by
  intro record member
  cases entry with
  | single feed =>
    have logged' : ∀ other ∈ [feed], Feed.Logged known other := by simpa [Entry.Logged] using logged
    exact (plain_feeds logged' server record member).found
  | group multi commands exec =>
    rw [recordsOf_group] at member
    rcases mem_append.mp member with lead | started
    · exact (plain_select multi.1 multi.2 record lead).found
    · rcases mem_cons.mp started with rfl | inside
      · exact known_multi
      · rcases mem_append.mp inside with queued | last
        · exact (plain_groupQueue logged _ exec record queued).found
        · rw [mem_singleton.mp last]
          exact known_exec

theorem known_entries (logged : ∀ entry ∈ entries, entry.Logged known) (server : Server) :
    ∀ record ∈ recordsOf server (entries.flatMap Entry.feeds), record.Known known := by
  induction entries generalizing server with
  | nil => simp [recordsOf]
  | cons entry entries ih =>
    intro record member
    rw [flatMap_cons, recordsOf_append] at member
    rcases mem_append.mp member with own | later
    · exact known_entry (logged entry (by simp)) server record own
    · exact ih (forall_mem_cons.mp logged).2 _ record later

/-- A server that starts to write a file. -/
structure Fresh (server : Server) : Prop where
  accepts : server.accepts = true
  empty : server.aofBuf = []
  unselected : server.aofSelectedDb = none

theorem Fresh.aofBuf (fresh : Fresh server) (entries : List (Entry config)) :
    (feedEntries server entries).aofBuf = (recordsOf server (entries.flatMap Entry.feeds)).flatMap Record.bytes := by
  rw [feedEntries, (feedAll_records _ server fresh.accepts).1, fresh.empty, nil_append]

theorem Fresh.agrees (fresh : Fresh server) (client : FakeClient) : Agrees server client := by
  intro db selected
  rw [fresh.unselected] at selected
  cases selected

theorem idle_createAOFClient : Idle createAOFClient := ⟨rfl, rfl⟩

/-- A torn record is a command unless it starts like an annotation. -/
def tornCommand (part : Sds) : Bool := part ≠ [] ∧ part.head? ≠ some 35

theorem remainder_torn (torn : Torn part record.bytes) : Remainder part (tornCommand part) := by
  by_cases nothing : part = []
  · rw [nothing]
    exact .nothing
  · obtain ⟨mark, rest, rfl⟩ := exists_cons_of_ne_nil nothing
    obtain ⟨more, layout⟩ := torn.1
    cases record with
    | stamp timestamp =>
      have same : mark = 35 := (List.cons.inj layout).1
      rw [show tornCommand (mark :: rest) = false by simp [tornCommand, same]]
      exact .stamp nothing torn
    | command argv =>
      have same : mark = 42 := (List.cons.inj layout).1
      rw [show tornCommand (mark :: rest) = true by simp [tornCommand, same]]
      exact .command nothing torn

/-- The client of the loader after some records. -/
abbrev replay (config : Config) (known : Sds → Bool) (records : List Record) : FakeClient :=
  records.foldl (deliverClient config known) createAOFClient

theorem replay_append (first second : List Record) : replay config known (first ++ second) =
    second.foldl (deliverClient config known) (replay config known first) := foldl_append

/-- The file that is left behind the records of a cut log. -/
abbrev leftFile (config : Config) (known : Sds → Bool) (front : List Record) (part : Sds) : Sds :=
  ((front.foldl (Progress.deliver config known) .start).ends (front.flatMap Record.bytes ++ part) (tornCommand part)).file

theorem load_remainder (rdbLoadRio : Sds → Option Nat) (found : ∀ record ∈ records, record.Known known)
    (remainder : Remainder part (tornCommand part)) :
    let result := loadSingleAppendOnlyFile config known rdbLoadRio true (records.flatMap Record.bytes ++ part)
    result.status ≠ .failed ∧ result.client = replay config known records ∧
      result.file = leftFile config known records part := by
  have client := @foldl_deliver_client config known records .start
  by_cases nothing : records.flatMap Record.bytes ++ part = []
  · obtain ⟨bytes, rfl⟩ := append_eq_nil_iff.mp nothing
    have length := length_records_le records
    rw [bytes] at length
    have none : records = [] := length_eq_zero_iff.mp (Nat.le_zero.mp length)
    rw [none]
    exact ⟨by simp [loadSingleAppendOnlyFile], rfl, rfl⟩
  · rw [loadSingleAppendOnlyFile_records rdbLoadRio found remainder nothing]
    refine ⟨?_, ?_, rfl⟩
    · rw [Progress.ends]
      split_ifs <;> simp
    · rw [← show _ = replay config known records from client, Progress.ends]
      split_ifs <;> rfl

theorem load_records (rdbLoadRio : Sds → Option Nat) (found : ∀ record ∈ records, record.Known known) :
    let result := loadSingleAppendOnlyFile config known rdbLoadRio true (records.flatMap Record.bytes)
    result.status ≠ .failed ∧ result.client = replay config known records := by
  have whole := @load_remainder config known records [] rdbLoadRio found .nothing
  rw [append_nil] at whole
  exact ⟨whole.1, whole.2.1⟩

variable (logged : ∀ entry ∈ entries, entry.Logged known) (fresh : Fresh server)
  (layout : recordsOf server (entries.flatMap Entry.feeds) = front ++ back) (ending : Leaves Record.bytes back part)

section Longest
theorem executed_partial (logged : entry.Logged known) {inside more : List Record} (some : more ≠ [])
    (layout : recordsOf server entry.feeds = inside ++ more) {client : FakeClient} (idle : Idle client) :
    (inside.foldl (deliverClient config known) client).executed = client.executed := by
  rcases partial_entry logged some layout with lead | ⟨lead, queue, rfl, lead', plain⟩
  · exact (foldl_deliverClient_lead lead idle).2
  · obtain ⟨idle', executed⟩ := @foldl_deliverClient_lead config known client lead lead' idle
    rw [foldl_append, foldl_deliverClient_started plain idle']
    exact executed

theorem length_feedEntries_le (accepts : server.accepts = true) (first second : List (Entry config)) :
    (feedEntries server first).aofBuf.length ≤ (feedEntries server (first ++ second)).aofBuf.length := by
  have fed : feedEntries server (first ++ second) = feedAll (feedEntries server first) (second.flatMap Entry.feeds) := by
    rw [feedEntries, flatMap_append, feedAll, foldl_append]
    rfl
  have accepts' : (feedEntries server first).accepts = true := (feedAll_records _ server accepts).2.1
  rw [fed, (feedAll_records _ _ accepts').1, length_append]
  exact Nat.le_add_right _ _

include logged layout in
theorem known_front : ∀ record ∈ front, record.Known known := by
  intro record member
  apply known_entries logged server
  rw [layout]
  exact mem_append_left _ member

include ending in
theorem remainder_cut : Remainder part (tornCommand part) := by
  rcases ending with ⟨_, rfl⟩ | ⟨record, rest, _, torn⟩
  · exact .nothing
  · exact remainder_torn torn

include fresh logged in
theorem replay_entries : replay config known (recordsOf server (entries.flatMap Entry.feeds)) =
    createAOFClient.after (executedBy 0 entries) :=
  (deliver_entries logged fresh.accepts idle_createAOFClient (fresh.agrees _)).1

include logged fresh layout ending in
/-- The commands that the loader executes before the cut are those of the entries that are whole. -/
theorem executed_cut : ∃ done later, entries = done ++ later ∧
      (replay config known front).executed = (executedBy 0 done).1 ∧
      (feedEntries server done).aofBuf <+: front.flatMap Record.bytes ++ part ∧
      ∀ entry rest, later = entry :: rest →
        (front.flatMap Record.bytes ++ part).length < (feedEntries server (done ++ [entry])).aofBuf.length := by
  rcases ending with ⟨rfl, rfl⟩ | ⟨record, rest, rfl, torn⟩
  · rw [append_nil] at layout
    refine ⟨entries, [], (append_nil _).symm, ?_, ?_, by simp⟩
    · rw [← layout, replay_entries logged fresh]
      simp [FakeClient.after, createAOFClient]
    · rw [fresh.aofBuf, layout, append_nil]
  · obtain ⟨done, entry, later, inside, more, tail, rfl, some, rfl, back, whole⟩ :=
      exists_entries layout (cons_ne_nil record rest)
    obtain ⟨next, more, rfl⟩ := exists_cons_of_ne_nil some
    obtain ⟨rfl, -⟩ := List.cons.inj back
    refine ⟨done, entry :: later, rfl, ?_, ?_, ?_⟩
    · have idle := idle_createAOFClient.after (executedBy 0 done)
      rw [replay_append, replay_entries (fun other member => logged other (mem_append_left _ member)) fresh,
        executed_partial (logged entry (by simp)) some whole idle]
      simp [FakeClient.after, createAOFClient]
    · rw [fresh.aofBuf, flatMap_append, append_assoc]
      exact prefix_append _ _
    · intro other rest' same
      obtain ⟨rfl, -⟩ := List.cons.inj same
      have short := torn.length_lt
      rw [fresh.aofBuf, flatMap_append, flatMap_append, recordsOf_append, flatMap_singleton,
        show feedAll server (done.flatMap Entry.feeds) = feedEntries server done from rfl, whole]
      simp only [flatMap_append, flatMap_cons, length_append]
      omega

/-- A log that is cut at any byte loads, and the loader executes the commands of the longest sequence of whole entries
that the file has. The log that is not cut is executed whole. -/
theorem load_executes_longest (rdbLoadRio : Sds → Option Nat) {server : Server} (fresh : Fresh server)
    {entries : List (Entry config)} (logged : ∀ entry ∈ entries, entry.Logged known) (count : Nat) :
    let file := (feedEntries server entries).aofBuf.take count
    let result := loadSingleAppendOnlyFile config known rdbLoadRio true file
    let uncut := loadSingleAppendOnlyFile config known rdbLoadRio true (feedEntries server entries).aofBuf
    result.status ≠ .failed ∧
    (∃ done, result.client.executed = (executedBy 0 done).1 ∧
      done <+: entries ∧ (feedEntries server done).aofBuf <+: file ∧
      ∀ other, other <+: entries → (feedEntries server other).aofBuf <+: file → other <+: done) ∧
    uncut.status ≠ .failed ∧ uncut.client.executed = (executedBy 0 entries).1 := by
  have found := known_entries logged server
  obtain ⟨back, layout, taken, ending⟩ := cut_spec Record.bytes (recordsOf server (entries.flatMap Entry.feeds)) count
  obtain ⟨done, later, rfl, executed, contained, longest⟩ := executed_cut logged fresh layout ending
  have front := known_front logged layout
  obtain ⟨loads, client, -⟩ := @load_remainder config known _ _ rdbLoadRio front (remainder_cut ending)
  obtain ⟨loads', client'⟩ := @load_records config known _ rdbLoadRio found
  rw [fresh.aofBuf, taken]
  refine ⟨loads, ⟨done, ?_, prefix_append _ _, contained, ?_⟩, loads', ?_⟩
  · rw [client, executed]
  · intro other before inside
    rcases prefix_or_prefix_of_prefix before (prefix_append done later) with shorter | ⟨more, rfl⟩
    · exact shorter
    · cases more with
      | nil => rw [append_nil]
      | cons entry more =>
        -- the next entry does not fit
        obtain ⟨rest, next⟩ := (prefix_append_right_inj done).mp before
        have short := longest entry (more ++ rest) next.symm
        have longer := length_feedEntries_le fresh.accepts (done ++ [entry]) more
        have fits := inside.length_le
        rw [append_assoc, singleton_append] at longer
        omega
  · rw [client', replay_entries logged fresh]
    rfl

def stampedConfig : Config := { sampleConfig with aofTimestampEnabled := true }

def pingKnown (name : Sds) : Bool := name = ascii "ping"

def pingFeed (unixtime : Int64) (db : Fin stampedConfig.dbnum) : Feed stampedConfig := ⟨unixtime, some db, pingArgv⟩

def sampleEntries : List (Entry stampedConfig) :=
  [.single (pingFeed 1 ⟨3, by decide⟩), .group (2, none) [pingFeed 2 ⟨3, by decide⟩, pingFeed 2 ⟨5, by decide⟩] (2, none)]

theorem fresh_freshServer : Fresh freshServer := ⟨rfl, rfl, rfl⟩

theorem logged_pingArgv : lookupCommand pingKnown pingArgv.args = some .other := by decide

theorem logged_sampleEntries : ∀ entry ∈ sampleEntries, entry.Logged pingKnown := by
  simp only [sampleEntries, forall_mem_cons, Entry.Logged]
  exact ⟨logged_pingArgv, ⟨logged_pingArgv, logged_pingArgv, by simp⟩, by simp⟩

theorem load_executes_longest_sample : Fresh freshServer ∧ (∀ entry ∈ sampleEntries, entry.Logged pingKnown) ∧
    (loadSingleAppendOnlyFile stampedConfig pingKnown (fun _ => none) true
      (feedEntries freshServer sampleEntries).aofBuf).client.executed = (executedBy 0 sampleEntries).1 := by
  refine ⟨fresh_freshServer, logged_sampleEntries, ?_⟩
  exact (load_executes_longest (fun _ => none) fresh_freshServer logged_sampleEntries 0).2.2.2
end Longest

section Append
include logged fresh layout in
theorem idle_or_started : Idle (replay config known front) ∨
    ∃ lead queue, front = lead ++ .command multiArgv :: queue ∧ Idle (replay config known lead) ∧
      ∀ record ∈ queue, record.Plain known := by
  by_cases whole : back = []
  · rw [whole, append_nil] at layout
    rw [← layout, replay_entries logged fresh]
    exact .inl (idle_createAOFClient.after _)
  · obtain ⟨done, entry, later, inside, more, tail, rfl, some, rfl, _, own⟩ := exists_entries layout whole
    have idle : Idle (replay config known (recordsOf server (done.flatMap Entry.feeds))) := by
      rw [replay_entries (fun other member => logged other (mem_append_left _ member)) fresh]
      exact idle_createAOFClient.after _
    rcases partial_entry (logged entry (by simp)) some own with lead | ⟨lead, queue, rfl, lead', plain⟩
    · left
      rw [replay_append]
      exact (foldl_deliverClient_lead lead idle).1
    · refine .inr ⟨_, queue, (append_assoc _ _ _).symm, ?_, plain⟩
      rw [replay_append]
      exact (foldl_deliverClient_lead lead' idle).1

/-- The loader is inside of a transaction exactly when the cut tears an annotation, or the cut tears nothing. -/
def SafeCut (client : FakeClient) (part : Sds) : Prop := part = [] ∨ (part.head? = some 35 ↔ client.multi = true)

instance (client : FakeClient) (part : Sds) : Decidable (SafeCut client part) := inferInstanceAs (Decidable (_ ∨ _))

include ending in
theorem torn_cases :
    part = [] ∨ (part ≠ [] ∧ part.head? = some 35 ∧ ∃ timestamp, Torn part (Record.stamp timestamp).bytes) ∨
      (part ≠ [] ∧ part.head? ≠ some 35) := by
  have remainder := remainder_cut ending
  generalize mark : tornCommand part = flag at remainder
  cases remainder with
  | nothing => exact .inl rfl
  | stamp some torn => exact .inr (.inl ⟨some, by simpa [tornCommand, some] using mark, _, torn⟩)
  | command some torn => exact .inr (.inr ⟨some, by simpa [tornCommand, some] using mark⟩)

theorem file_tornCommand (found : ∀ record ∈ front, record.Known known)
    (torn : tornCommand part = true) : ∃ kept, kept <+: front ∧ replay config known kept = replay config known front ∧
      leftFile config known front part = kept.flatMap Record.bytes := by
  obtain ⟨kept, rest, layout, offset, client⟩ := @exists_validUpTo config known front found
  refine ⟨kept, ⟨rest, layout.symm⟩, client, ?_⟩
  rw [leftFile, Progress.ends, if_pos torn, offset]
  exact take_kept layout part

theorem file_started {lead : List Record} (found : ∀ record ∈ lead, record.Known known)
    (plain : ∀ record ∈ queue, record.Plain known) (torn : tornCommand part = false)
    (inside : (replay config known (lead ++ .command multiArgv :: queue)).multi = true) :
    ∃ kept, kept <+: lead ∧ replay config known kept = replay config known lead ∧
      leftFile config known (lead ++ .command multiArgv :: queue) part = kept.flatMap Record.bytes := by
  obtain ⟨kept, rest, layout, offset, client⟩ := @exists_validUpTo config known lead found
  refine ⟨kept, ⟨rest, layout.symm⟩, client, ?_⟩
  have whole : lead ++ .command multiArgv :: queue = kept ++ (rest ++ .command multiArgv :: queue) := by
    rw [layout, append_assoc]
  have inside' : ((lead ++ .command multiArgv :: queue).foldl (Progress.deliver config known) .start).client.multi =
      true := by
    rw [foldl_deliver_client]
    exact inside
  rw [leftFile, Progress.ends, torn, if_pos inside', validBeforeMulti_started plain, offset]
  exact take_kept whole part

theorem file_idle (torn : tornCommand part = false) (idle : Idle (replay config known front)) :
    leftFile config known front part = front.flatMap Record.bytes ++ part := by
  have client := @foldl_deliver_client config known front .start
  have outside : (front.foldl (Progress.deliver config known) .start).client.multi = false := by
    rw [client]
    exact idle.multi
  rw [leftFile, Progress.ends, torn, if_neg (by decide), outside, if_neg (by decide)]

/-- The three things that the loader can leave on disk. -/
inductive Left (config : Config) (known : Sds → Bool) (client : FakeClient) (front : List Record)
    (part file : Sds) : Prop where
  | safe (kept : List Record) (before : kept <+: front) (bytes : file = kept.flatMap Record.bytes)
      (idle : Idle (replay config known kept)) (executed : (replay config known kept).executed = client.executed)
      (db : (replay config known kept).db = client.db) (safe : SafeCut client part)
  | tornStamp (timestamp : Int64) (some : part ≠ []) (torn : Torn part (Record.stamp timestamp).bytes)
      (bytes : file = front.flatMap Record.bytes ++ part) (unsafeCut : ¬SafeCut client part)
  | insideMulti (kept : List Record) (before : kept <+: front) (bytes : file = kept.flatMap Record.bytes)
      (same : replay config known kept = client) (inside : client.multi = true) (unsafeCut : ¬SafeCut client part)

include logged fresh layout ending in
theorem left_ends : Left config known (replay config known front) front part (leftFile config known front part) := by
  have found := known_front logged layout
  rcases idle_or_started logged fresh layout with idle | ⟨lead, queue, rfl, idle, plain⟩
  · rcases torn_cases ending with rfl | ⟨some, mark, timestamp, torn⟩ | ⟨some, mark⟩
    · apply Left.safe front prefix_rfl _ idle rfl rfl (.inl rfl)
      rw [file_idle rfl idle, append_nil]
    · apply Left.tornStamp timestamp some torn (file_idle (by simp [tornCommand, mark]) idle)
      simp [SafeCut, some, mark, idle.multi]
    · obtain ⟨kept, before, client, bytes⟩ :=
        file_tornCommand found (show tornCommand part = true by simp [tornCommand, some, mark])
      apply Left.safe kept before bytes (client ▸ idle) (by rw [client]) (by rw [client])
      simp [SafeCut, mark, idle.multi]
  · have started : replay config known (lead ++ .command multiArgv :: queue) =
        { replay config known lead with multi := true, mstate := queueOf known queue } := by
      rw [replay_append, foldl_deliverClient_started plain idle]
    have inside : (replay config known (lead ++ .command multiArgv :: queue)).multi = true := by rw [started]
    cases torn : tornCommand part with
    | false =>
      obtain ⟨kept, before, client, bytes⟩ :=
        file_started (fun record member => found record (mem_append_left _ member)) plain torn inside
      apply Left.safe kept (before.trans (prefix_append _ _)) bytes (client ▸ idle)
      · rw [client, started]
      · rw [client, started]
      · rw [SafeCut, inside]
        simpa [tornCommand, or_iff_not_imp_left] using torn
    | true =>
      obtain ⟨kept, before, client, bytes⟩ := file_tornCommand found torn
      apply Left.insideMulti kept before bytes client inside
      rw [SafeCut, inside]
      simpa [tornCommand] using torn

theorem load_appended (rdbLoadRio : Sds → Option Nat)
    (found : ∀ record ∈ kept, record.Known known) (idle : Idle (replay config known kept))
    (fresh : Fresh server) {more : List (Entry config)} (logged : ∀ entry ∈ more, entry.Logged known) :
    let second := loadSingleAppendOnlyFile config known rdbLoadRio true
      (kept.flatMap Record.bytes ++ (feedEntries server more).aofBuf)
    second.status ≠ .failed ∧ second.client.executed = (replay config known kept).executed ++
      (executedBy (replay config known kept).db more).1 := by
  have found' : ∀ record ∈ kept ++ recordsOf server (more.flatMap Entry.feeds), record.Known known := by
    intro record member
    rcases mem_append.mp member with own | later
    · exact found record own
    · exact known_entries logged server record later
  obtain ⟨loads, client⟩ := @load_records config known _ rdbLoadRio found'
  rw [flatMap_append] at loads client
  rw [fresh.aofBuf]
  refine ⟨loads, ?_⟩
  rw [client, replay_append, (deliver_entries logged fresh.accepts idle (fresh.agrees _)).1]
  rfl

theorem exists_probe (probe : Argv) : ∃ server : Server, Fresh server ∧
    (feedEntries server [Entry.single (⟨0, none, probe⟩ : Feed config)]).aofBuf = (Record.command probe).bytes := by
  refine ⟨freshServer, ⟨rfl, rfl, rfl⟩, ?_⟩
  rw [Fresh.aofBuf ⟨rfl, rfl, rfl⟩]
  have stamps : stampRecords config freshServer 0 = [] := by
    rw [stampRecords, if_neg]
    rintro ⟨_, later⟩
    exact absurd later (by decide)
  simp [Entry.feeds, recordsOf, feedRecords, stamps, selectRecords]

def appended : Sds := (feedEntries freshServer [Entry.single (⟨0, none, pingArgv⟩ : Feed stampedConfig)]).aofBuf

end Append
end Redis.Aof

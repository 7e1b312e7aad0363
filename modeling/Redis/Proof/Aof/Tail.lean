import Redis.Construction.Aof.Write
import Redis.Foundation.Outcome

namespace Redis.Aof
open Foundation List
variable {config : Config} {server : Server} {file : OpenFile} {start buf : Sds}

/-- The bytes that a call feeds to the file. -/
def fedBy (server : Server) : Call config → Sds
  | .feed unixtime dictid argv =>
    if server.accepts then (feedBuffer config unixtime server (dictid.map Fin.val) argv).1 else []
  | .flush _ _ => []

def fed (server : Server) : List (Call config) → Sds
  | [] => []
  | first :: calls => fedBy server first ++ match call server first with
      | .ok (next, _) => fed next calls
      | .error _ => []

/-- The file and the buffer hold these bytes, and the size of the file is known. -/
def Intact (bytes : Sds) (server : Server) : Prop :=
  ∃ file, server.aofFd = some file ∧ file.bytes ++ server.aofBuf = bytes ∧ server.aofLastIncrSize = file.bytes.length

/-- The next write goes to the end of the file. -/
def AtEnd (server : Server) : Prop := ∀ file, server.aofFd = some file → file.offset = file.bytes.length

/-- A write that stays in the file goes to its end. -/
def KeepsAtEnd (server : Server) (first : Call config) : Prop :=
  ∀ next out, call server first = .ok (next, out) → server.aofLastIncrSize < next.aofLastIncrSize → AtEnd server

instance (server : Server) : Decidable (AtEnd server) :=
  match fd : server.aofFd with
  | some file => decidable_of_iff (file.offset = file.bytes.length) (by simp [AtEnd, fd])
  | none => .isTrue (by simp [AtEnd, fd])

instance (server : Server) (first : Call config) : Decidable (KeepsAtEnd server first) :=
  match called : call server first with
  | .ok (next, out) => decidable_of_iff (server.aofLastIncrSize < next.aofLastIncrSize → AtEnd server)
      (by simp [KeepsAtEnd, called])
  | .error _ => .isTrue (by simp [KeepsAtEnd, called])

/-- The number of bytes that the write calls of one flush write. -/
structure Wrote (results : List WriteResult) (buf : Sds) (count : Nat) : Prop where
  fits : count ≤ buf.length
  complete : .failed ∉ results → count = buf.length
  nothing : .failed ∈ results → (∀ result ∈ results, result = .failed ∨ result = .eintr) → count = 0

theorem aofWrite_spec (results : List WriteResult) (buf : Sds) (inside : file.append = false)
    (behind : file.bytes.length ≤ file.offset) (totwritten : Nat) :
    ∃ count, Wrote results buf count ∧ aofWrite results file buf totwritten =
      (file.write (buf.take count), if totwritten + count = 0 ∧ buf ≠ [] then (-1 : Int) else (totwritten + count : Nat)) := by
  induction results generalizing file buf totwritten with
  | nil =>
    refine ⟨buf.length, ⟨le_rfl, fun _ => rfl, nofun⟩, ?_⟩
    cases buf with
    | nil => simp [aofWrite, OpenFile.write_nil]
    | cons byte buf => simp [aofWrite]
  | cons result results ih =>
    cases buf with
    | nil => exact ⟨0, ⟨le_rfl, fun _ => rfl, fun _ _ => rfl⟩, by simp [aofWrite, OpenFile.write_nil]⟩
    | cons byte buf =>
      cases result with
      | eintr =>
        obtain ⟨count, wrote, same⟩ := ih (byte :: buf) inside behind totwritten
        refine ⟨count, ⟨wrote.fits, fun none => wrote.complete (by simpa using none), fun fails all => ?_⟩, same⟩
        exact wrote.nothing (by simpa using fails) (forall_mem_cons.mp all).2
      | failed =>
        refine ⟨0, ⟨Nat.zero_le _, fun none => ?_, fun _ _ => rfl⟩, by simp [aofWrite, OpenFile.write_nil]⟩
        exact absurd mem_cons_self none
      | wrote count =>
        have room : min count (byte :: buf).length ≤ (byte :: buf).length := min_le_right _ _
        generalize equal : min count (byte :: buf).length = first at room
        obtain ⟨more, wrote, same⟩ := @ih (file.write ((byte :: buf).take first)) ((byte :: buf).drop first)
          (by rw [OpenFile.write_append, inside]) (OpenFile.behind_write inside behind _) (totwritten + first)
        have fits := wrote.fits
        have complete := wrote.complete
        rw [length_drop] at fits complete
        have step : aofWrite (.wrote count :: results) file (byte :: buf) totwritten = aofWrite results
            (file.write ((byte :: buf).take (min count (byte :: buf).length)))
            ((byte :: buf).drop (min count (byte :: buf).length))
            (totwritten + min count (byte :: buf).length) := rfl
        refine ⟨first + more, ⟨by omega, fun none => ?_, fun _ all => ?_⟩, ?_⟩
        · have := complete fun member => none (mem_cons_of_mem _ member)
          omega
        · rcases all _ mem_cons_self with failed | eintr
          · cases failed
          · cases eintr
        rw [step, equal, same, OpenFile.write_write inside behind, ← take_add, add_assoc]
        by_cases nothing : totwritten + (first + more) = 0
        · have zero : first = 0 := by omega
          simp [zero]
        · rw [if_neg (fun both => nothing both.1), if_neg (fun both => nothing both.1)]

/-- What a flush can do to the file. -/
inductive FileFlushed (results : List WriteResult) (server : Server) (file : OpenFile) (next : Server) : Prop where
  | unchanged (aofFd : next.aofFd = some file) (aofBuf : next.aofBuf = server.aofBuf)
      (size : next.aofLastIncrSize = server.aofLastIncrSize)
  | undone (count : Nat) (wrote : Wrote results server.aofBuf count) (positive : 0 < count)
      (short : count < server.aofBuf.length)
      (aofFd : next.aofFd = some ((file.write (server.aofBuf.take count)).truncate server.aofLastIncrSize))
      (aofBuf : next.aofBuf = server.aofBuf) (size : next.aofLastIncrSize = server.aofLastIncrSize)
  | kept (count : Nat) (wrote : Wrote results server.aofBuf count) (positive : 0 < count)
      (aofFd : next.aofFd = some (file.write (server.aofBuf.take count)))
      (aofBuf : next.aofBuf = server.aofBuf.drop count)
      (size : next.aofLastIncrSize = server.aofLastIncrSize + count)

/-- A flush leaves the fields that the encoding of commands reads. -/
structure Flushed (results : List WriteResult) (server : Server) (file : OpenFile) (next : Server) : Prop where
  state : next.aofState = server.aofState
  selected : next.aofSelectedDb = server.aofSelectedDb
  data : FileFlushed results server file next

theorem tryFsync_spec (policy : config.aofFsync ≠ .always) (env : FlushEnv) (syncInProgress : Bool) (server : Server) :
    ∃ lastFsync syncOffset, tryFsync config env syncInProgress server = .ok { server with
      aofLastFsync := lastFsync, aofLastIncrFsyncOffset := syncOffset } := by
  unfold tryFsync
  split_ifs <;> exact ⟨_, _, rfl⟩

theorem writeAndSync_spec (policy : config.aofFsync ≠ .always) (env : FlushEnv) (syncInProgress : Bool)
    (fd : server.aofFd = some file) (inside : file.append = false) (behind : file.bytes.length ≤ file.offset)
    (pending : server.aofBuf ≠ []) :
    ∃ next, writeAndSync config env syncInProgress server = .ok next ∧ Flushed env.writes server file next := by
  obtain ⟨count, wrote, written⟩ := aofWrite_spec env.writes server.aofBuf inside behind 0
  have fits := wrote.fits
  have buffer : writeBuffer env server = (some (file.write (server.aofBuf.take count)),
      if count = 0 then -1 else (count : Int)) := by
    simp only [writeBuffer, fd, written, Nat.zero_add, ne_eq, pending, not_false_eq_true, and_true]
  rw [writeAndSync, buffer]
  dsimp only
  by_cases nothing : count = 0
  · -- The first write failed, so the file is as before.
    subst nothing
    rw [if_pos (by omega), handleWriteError]
    dsimp only
    rw [if_neg (by omega)]
    exact ⟨_, rfl, rfl, rfl, .unchanged rfl rfl rfl⟩
  have positive : 0 < count := Nat.pos_of_ne_zero nothing
  rw [if_neg nothing]
  by_cases all : count = server.aofBuf.length
  · rw [if_neg (by omega)]
    obtain ⟨lastFsync, syncOffset, synced⟩ := tryFsync_spec policy env syncInProgress _
    refine ⟨_, synced, rfl, rfl, .kept count wrote positive rfl ?_ rfl⟩
    rw [all, drop_length]
  · rw [if_pos (by omega), handleWriteError, undoShortWrite, if_neg (by omega)]
    by_cases undone : env.ftruncate
    · rw [if_pos undone]
      dsimp only
      rw [if_neg (by omega)]
      exact ⟨_, rfl, rfl, rfl, .undone count wrote positive (by omega) rfl rfl rfl⟩
    · rw [if_neg undone]
      dsimp only
      rw [if_neg policy, if_pos (by omega)]
      exact ⟨_, rfl, rfl, rfl, .kept count wrote positive rfl rfl rfl⟩

theorem flushAppendOnlyFile_spec (policy : config.aofFsync ≠ .always) (force : Bool) (env : FlushEnv)
    (fd : server.aofFd = some file) (inside : file.append = false) (behind : file.bytes.length ≤ file.offset) :
    ∃ next, flushAppendOnlyFile config force env server = .ok next ∧ Flushed env.writes server file next := by
  rw [flushAppendOnlyFile]
  by_cases empty : server.aofBuf = []
  · rw [if_pos empty]
    split_ifs
    · obtain ⟨lastFsync, syncOffset, synced⟩ := tryFsync_spec policy env false server
      exact ⟨_, synced, rfl, rfl, .unchanged fd rfl rfl⟩
    · exact ⟨server, rfl, rfl, rfl, .unchanged fd rfl rfl⟩
  rw [if_neg empty]
  by_cases waits : (decide (config.aofFsync = .everysec) && env.aofFsyncInProgress) = true ∧ ¬force = true ∧
      postponesFlush env server = true
  · rw [if_pos waits]
    exact ⟨_, rfl, rfl, rfl, .unchanged fd rfl rfl⟩
  · rw [if_neg waits]
    exact writeAndSync_spec policy env _ fd inside behind empty

/-- The invariant of the calls. The offset is behind the end after a short write was undone. -/
structure Tail (bytes : Sds) (server : Server) (file : OpenFile) : Prop where
  aofFd : server.aofFd = some file
  append : file.append = false
  behind : file.bytes.length ≤ file.offset
  bytes : file.bytes ++ server.aofBuf = bytes
  size : server.aofLastIncrSize = file.bytes.length

theorem Tail.intact {bytes : Sds} (tail : Tail bytes server file) : Intact bytes server :=
  ⟨file, tail.aofFd, tail.bytes, tail.size⟩

theorem feedBuffer_server (config : Config) (unixtime : Int64) (server : Server) (dictid : Option Nat) (argv : Argv) :
    ∃ db timestamp, (feedBuffer config unixtime server dictid argv).2 =
      { server with aofSelectedDb := db, aofCurTimestamp := timestamp } := by
  have select (server : Server) : ∃ db, (feedSelect server dictid).2 = { server with aofSelectedDb := db } := by
    cases dictid with
    | none => exact ⟨_, rfl⟩
    | some db =>
      rw [feedSelect]
      split_ifs
      · exact ⟨_, rfl⟩
      · exact ⟨_, rfl⟩
  have stamp : ∃ timestamp, (feedTimestamp config server unixtime).2 = { server with aofCurTimestamp := timestamp } := by
    rw [feedTimestamp, genAofTimestampAnnotationIfNeeded]
    split_ifs
    · exact ⟨_, rfl⟩
    · exact ⟨_, rfl⟩
    · exact ⟨_, rfl⟩
  obtain ⟨timestamp, stamped⟩ := stamp
  obtain ⟨db, selected⟩ := select (feedTimestamp config server unixtime).2
  refine ⟨db, timestamp, ?_⟩
  rw [feedBuffer]
  rw [selected, stamped]

theorem Tail.feed (tail : Tail start server file) (unixtime : Int64) (dictid : Option (Fin config.dbnum)) (argv : Argv) :
    Tail (start ++ fedBy server (.feed unixtime dictid argv)) (feedAppendOnlyFile config unixtime server dictid argv)
      file := by
  obtain ⟨db, timestamp, same⟩ := feedBuffer_server config unixtime server (dictid.map Fin.val) argv
  rw [feedAppendOnlyFile, fedBy]
  dsimp only
  rw [same]
  have accepts : Server.accepts { server with aofSelectedDb := db, aofCurTimestamp := timestamp } = server.accepts := rfl
  rw [accepts]
  split_ifs
  · exact ⟨tail.aofFd, tail.append, tail.behind, by rw [← append_assoc, tail.bytes], tail.size⟩
  · exact ⟨tail.aofFd, tail.append, tail.behind, by rw [append_nil]; exact tail.bytes, tail.size⟩

theorem Tail.flush (policy : config.aofFsync ≠ .always) (tail : Tail start server file) (force : Bool) (env : FlushEnv) :
    ∃ next, flushAppendOnlyFile config force env server = .ok next ∧
      ((server.aofLastIncrSize < next.aofLastIncrSize → AtEnd server) → ∃ file', Tail start next file') ∧
      (¬(server.aofLastIncrSize < next.aofLastIncrSize → AtEnd server) → ¬Intact start next) := by
  obtain ⟨next, flushed, result⟩ := flushAppendOnlyFile_spec policy force env tail.aofFd tail.append tail.behind
  refine ⟨next, flushed, ?_⟩
  cases result.data with
  | unchanged aofFd aofBuf size =>
    refine ⟨fun _ => ⟨file, aofFd, tail.append, tail.behind, ?_, size.trans tail.size⟩, fun bad => ?_⟩
    · rw [aofBuf, tail.bytes]
    · exact absurd (fun more => absurd more (by omega)) bad
  | undone count _ positive short aofFd aofBuf size =>
    have data : server.aofBuf.take count ≠ [] := by
      rw [Ne, take_eq_nil_iff]
      rintro (none | empty)
      · omega
      · simp [empty] at short
    rw [tail.size, OpenFile.truncate_write tail.append tail.behind data] at aofFd
    refine ⟨fun _ => ⟨_, aofFd, tail.append, ?_, ?_, size.trans tail.size⟩, fun bad => ?_⟩
    · exact tail.behind.trans (Nat.le_add_right _ _)
    · rw [aofBuf]
      exact tail.bytes
    · exact absurd (fun more => absurd more (by omega)) bad
  | kept count wrote positive aofFd aofBuf size =>
    have length : (server.aofBuf.take count).length = count := length_take_of_le wrote.fits
    refine ⟨fun atEnd => ?_, fun bad => ?_⟩
    · have last := atEnd (by omega) file tail.aofFd
      obtain ⟨content, offset⟩ := OpenFile.write_at_end (fun _ => last) (server.aofBuf.take count)
      refine ⟨_, aofFd, by rw [OpenFile.write_append, tail.append], ?_, ?_, ?_⟩
      · rw [offset (by rw [OpenFile.write_append, tail.append])]
      · rw [content, aofBuf, append_assoc, take_append_drop, tail.bytes]
      · rw [content, size, tail.size, length_append, length]
    · -- The zero bytes of the gap make the file longer than its known size.
      rintro ⟨other, fd, _, known⟩
      have gap : file.offset ≠ file.bytes.length := by
        intro last
        apply bad
        intro _ own ownFd
        rw [tail.aofFd, Option.some_inj] at ownFd
        rw [← ownFd, last]
      have data : server.aofBuf.take count ≠ [] := ne_nil_of_length_pos (by omega)
      obtain ⟨_, bytes⟩ := OpenFile.write_behind tail.append tail.behind data
      rw [aofFd, Option.some_inj] at fd
      rw [← fd, bytes, length_append, length_resize, size, tail.size] at known
      omega

theorem Tail.call (policy : config.aofFsync ≠ .always) (tail : Tail start server file) (first : Call config) :
    ∃ next, Aof.call server first = .ok (next, ()) ∧
      (KeepsAtEnd server first → ∃ file', Tail (start ++ fedBy server first) next file') ∧
      (¬KeepsAtEnd server first → ¬Intact (start ++ fedBy server first) next) := by
  cases first with
  | feed unixtime dictid argv =>
    have tail' := tail.feed unixtime dictid argv
    refine ⟨_, rfl, fun _ => ⟨file, tail'⟩, fun bad => absurd ?_ bad⟩
    rintro next out fedCall more
    cases fedCall
    have size := tail'.size
    rw [← tail.size] at size
    omega
  | flush force env =>
    obtain ⟨next, flushed, kept, lost⟩ := tail.flush policy force env
    have called : Aof.call server (.flush force env : Call config) = .ok (next, ()) := by
      rw [Aof.call, flushed]
      rfl
    have same : KeepsAtEnd server (.flush force env : Call config) ↔
        (server.aofLastIncrSize < next.aofLastIncrSize → AtEnd server) := by
      rw [KeepsAtEnd, called]
      constructor
      · intro keeps
        exact keeps next () rfl
      · rintro keeps next' out equal
        cases equal
        exact keeps
    rw [fedBy, append_nil, same]
    exact ⟨next, called, kept, lost⟩

theorem Tail.run_iff (policy : config.aofFsync ≠ .always) (tail : Tail start server file) (calls : List (Call config)) :
    (∀ front back, calls = front ++ back → ∃ final outs, run Aof.call server front = .ok (final, outs) ∧
      Intact (start ++ fed server front) final) ↔ Guarded Aof.call KeepsAtEnd server calls := by
  induction calls generalizing server start file with
  | nil =>
    refine ⟨fun _ => trivial, fun _ front back split => ?_⟩
    rw [(append_eq_nil_iff.mp split.symm).1]
    exact ⟨server, [], rfl, by rw [fed, append_nil]; exact tail.intact⟩
  | cons first calls ih =>
    obtain ⟨next, called, kept, lost⟩ := tail.call policy first
    have later (front : List (Call config)) : fed server (first :: front) = fedBy server first ++ fed next front := by
      rw [fed, called]
    have ran (front : List (Call config)) : run Aof.call server (first :: front) =
        (run Aof.call next front).map fun rest => (rest.1, () :: rest.2) := by
      rw [run, called]
      rfl
    constructor
    · intro intact
      have keeps : KeepsAtEnd server first := by
        by_contra bad
        obtain ⟨final, outs, ran', intact'⟩ := intact [first] calls rfl
        rw [ran] at ran'
        cases ran'
        rw [later, fed, append_nil] at intact'
        exact lost bad intact'
      obtain ⟨file', tail'⟩ := kept keeps
      refine ⟨keeps, fun other out called' => ?_⟩
      rw [called] at called'
      cases called'
      rw [← ih tail']
      intro front back split
      obtain ⟨final, outs, ran', intact'⟩ := intact (first :: front) back (by rw [split, cons_append])
      rw [ran] at ran'
      cases inner : run Aof.call next front with
      | error halt => rw [inner] at ran'; cases ran'
      | ok result =>
        rw [inner] at ran'
        cases ran'
        rw [later, ← append_assoc] at intact'
        exact ⟨_, _, rfl, intact'⟩
    · rintro ⟨keeps, guarded⟩ front back split
      obtain ⟨file', tail'⟩ := kept keeps
      cases front with
      | nil => exact ⟨server, [], rfl, by rw [fed, append_nil]; exact tail.intact⟩
      | cons other front =>
        rw [cons_append, List.cons.injEq] at split
        obtain ⟨rfl, split⟩ := split
        obtain ⟨final, outs, ran', intact'⟩ := (ih tail').mpr (guarded next () called) front back split
        refine ⟨final, () :: outs, by rw [ran, ran']; rfl, ?_⟩
        rw [later, ← append_assoc]
        exact intact'

/-- A server with a new file, as at the start of a background rewrite. -/
def freshServer : Server := ⟨.on, false, [], none, 0, some ⟨[], 0, false⟩, 0, 0, 0, 0, 0, true⟩

def sampleConfig : Config := ⟨16, by decide, false, .everysec, false⟩

def pingArgv : Argv := ⟨[ascii "PING"], by decide, by decide, by decide⟩

/-- The answers of the system when the write calls have these results and `ftruncate` succeeds. -/
def envOf (writes : List WriteResult) : FlushEnv := ⟨1, false, false, writes, true, true⟩

/-- A write that fails is repeated. -/
def repeatedCalls : List (Call sampleConfig) :=
  [.feed 1 none pingArgv, .flush false (envOf [.failed]), .flush false (envOf [])]

/-- A short write that `ftruncate` removes is followed by a successful write. -/
def undoneCalls : List (Call sampleConfig) :=
  [.feed 1 none pingArgv, .flush false (envOf [.wrote 2, .failed]), .flush false (envOf [])]

end Redis.Aof

import Redis.Construction.Blocking
import Redis.Foundation.Outcome

namespace Redis.Blocking
open Foundation

/-- The time limits of the commands that the clients execute, as far as they are known. -/
abbrev Limits := Nat → Option Nat

/-- The limit of a command. One that was executed before keeps its first limit. -/
def Command.limit (known : Option Nat) : Command → Option Nat
  | .keys _ _ timeout => some (known.getD timeout)
  | .wait timeout | .waitaof timeout | .module timeout => some timeout
  | .postponeUnread | .postpone => known
  | .finish | .shutdown => none

def limitsAfter (server : Server) (limits : Limits) : Event → Limits
  | .client id event => (server.clients id).elim limits fun c =>
      match event with
      | .processCommand command =>
        if c.btype = none then Function.update limits id (command.limit (if c.cmd then limits id else none)) else limits
      | _ => limits
  | _ => limits

/-- The time at which a client has to be unblocked, or zero. -/
def blockedLimit (btype : Option BlockingType) (limit : Option Nat) : Nat :=
  if btype = none ∨ btype = some .postpone ∨ btype = some .shutdown then 0 else limit.getD 0

/-- The table has one entry for each client that is blocked by a command with a limit. -/
def Exact (server : Server) (limits : Limits) : Prop :=
  server.clientsTimeoutTable.Nodup ∧ ∀ timeout id, (timeout, id) ∈ server.clientsTimeoutTable ↔
    timeout ≠ 0 ∧ blockedLimit ((server.clients id).bind (·.btype)) (limits id) = timeout

/-- A shutdown is asked for by a client whose last limit was none, a command that is executed again still has its limit,
and `CLIENT UNBLOCK` is for clients that can get the reply of a timeout. -/
def Timed (state : Server × Limits) : Event → Prop
  | .client id event => ∀ c ∈ state.1.clients id, match event with
    | .processCommand .shutdown => c.timeout = 0
    | .processCommand (.keys _ _ timeout) => c.cmd = true → c.timeout = (state.2 id).getD timeout
    | .clientUnblock => c.btype ∉ [some .postpone, some .shutdown]
    | _ => True
  | _ => True

/-- An event with the limits of the commands. -/
def limitedStep (state : Server × Limits) (event : Event) : Checked ((Server × Limits) × Unit) := do
  let server ← step state.1 event
  return ((server, limitsAfter state.1 state.2 event), ())

/-- A server without clients. -/
def start : Server × Limits := (⟨fun _ => none, []⟩, fun _ => none)

/-- The invariant of the runs. The fields of a blocked client fit its limit. -/
structure Kept (server : Server) (limits : Limits) : Prop where
  exact : Exact server limits
  timeout : ∀ id, ∀ c ∈ server.clients id, c.btype ≠ none → c.timeout = blockedLimit c.btype (limits id)
  listed : ∀ id, ∀ c ∈ server.clients id, c.inToTable = true ↔ blockedLimit c.btype (limits id) ≠ 0

variable {server : Server} {limits limits' : Limits} {id : Nat} {c : Client}

@[grind =] theorem store_clients (server : Server) (id : Nat) (client : Option Client) (other : Nat) :
    (server.store id client).clients other = if other = id then client else server.clients other :=
  Function.update_apply _ _ _ _

@[grind =] theorem store_table (server : Server) (id : Nat) (client : Option Client) :
    (server.store id client).clientsTimeoutTable = server.clientsTimeoutTable := rfl

@[grind =] theorem blockedLimit_none (limit : Option Nat) : blockedLimit none limit = 0 := rfl

variable (kept : Kept server limits)
include kept
/-- A client that is not blocked is replaced or freed. -/
theorem Kept.replace (same : ∀ other ≠ id, limits' other = limits other)
    (idle : ∀ c ∈ server.clients id, c.btype = none) {client : Option Client}
    (replaced : ∀ c ∈ client, c.btype = none ∧ c.inToTable = false) : Kept (server.store id client) limits' := by
  obtain ⟨⟨nodup, entry⟩, timeout, listed⟩ := kept
  refine ⟨⟨nodup, ?_⟩, ?_, ?_⟩ <;> cases client <;> cases stored : server.clients id <;> grind

variable (stored : server.clients id = some c)
include stored
theorem Kept.block (same : ∀ other ≠ id, limits' other = limits other) (idle : c.btype = none) {c' : Client}
    (unlisted : c'.inToTable = c.inToTable) {btype : BlockingType}
    (timed : c'.timeout = blockedLimit (some btype) (limits' id)) : Kept (blockClient server id c' btype) limits' := by
  obtain ⟨⟨nodup, entry⟩, timeout, listed⟩ := kept
  rw [blockClient, addClientToTimeoutTable]
  split_ifs with unlimited
  · refine ⟨⟨nodup, ?_⟩, ?_, ?_⟩ <;> grind
  · have absent : (c'.timeout, id) ∉ server.clientsTimeoutTable := fun member => unlimited (.inr member)
    refine ⟨⟨(List.perm_orderedInsert _ _ _).nodup_iff.mpr (List.nodup_cons.mpr ⟨absent, nodup⟩), ?_⟩, ?_, ?_⟩ <;>
      grind [List.mem_orderedInsert]

theorem Kept.unblock (blocked : c.btype ≠ none) (pendingCommand : Bool) :
    Kept (unblockClient server id { c with pendingCommand }) limits := by
  obtain ⟨⟨nodup, entry⟩, timeout, listed⟩ := kept
  rw [unblockClient, removeClientFromTimeoutTable]
  dsimp only
  split_ifs with inside
  · refine ⟨⟨nodup.erase _, ?_⟩, ?_, ?_⟩ <;> grind [nodup.mem_erase_iff]
  · refine ⟨⟨nodup, ?_⟩, ?_, ?_⟩ <;> grind

theorem Kept.onTimeout (replied : c.btype ∉ [none, some .postpone, some .shutdown]) :
    Outcome (unblockClientOnTimeout server id c) (fun _ => False) (Kept · limits) := by
  rw [unblockClientOnTimeout, replyToBlockedClientTimedOut, require_of replied]
  exact kept.unblock stored (fun none => replied (by simp [none])) false

theorem Kept.process (idle : c.btype = none) {command : Command}
    (timed : Timed (server, limits) (.client id (.processCommand command))) :
    Kept (processCommand server id c command)
      (Function.update limits id (command.limit (if c.cmd then limits id else none))) := by
  have same : ∀ other ≠ id, Function.update limits id (command.limit (if c.cmd then limits id else none)) other =
      limits other := fun other different => Function.update_of_ne different _ _
  cases command with
  | finish =>
    apply kept.replace same
    · grind
    · grind [kept.listed id c stored]
  | keys btype data timeout =>
    have limited : ∀ btype ∈ [BlockingType.list, .zset, .stream, .module],
        ¬(some btype = none ∨ some btype = some .postpone ∨ some btype = some .shutdown) := by decide
    apply kept.block stored same idle
    · rfl
    · rw [blockedLimit, if_neg (limited btype data), Function.update_self, Command.limit]
      cases again : c.cmd with
      | true => exact timed c stored again
      | false => rfl
  | shutdown =>
    apply kept.block stored same idle
    · rfl
    · exact timed c stored
  | _ =>
    simp only [processCommand, blockPostponeClient, blockForReplication, blockForAofFsync, moduleBlockClient, blockFor]
    apply kept.block stored same idle
    · rfl
    · simp [blockedLimit, Command.limit]

theorem Kept.free : Kept (freeClient server id c) limits := by
  rw [freeClient]
  split_ifs with idle
  · exact kept.replace (fun _ _ => rfl) (by simp [stored, idle]) (by simp)
  · apply (kept.unblock stored idle c.pendingCommand).replace (fun _ _ => rfl) _ (by simp)
    simp [unblockClient, removeClientFromTimeoutTable, Server.store]

omit stored

/-- The first entry belongs to a client that is unblocked, and each iteration takes one entry. -/
theorem Kept.timeoutLoop (now : Nat) {fuel : Nat} (enough : server.clientsTimeoutTable.length < fuel) :
    Outcome (timeoutLoop now fuel server) (fun _ => False) (Kept · limits) := by
  induction fuel generalizing server with
  | zero => omega
  | succ fuel ih =>
    rw [Blocking.timeoutLoop]
    cases table : server.clientsTimeoutTable with
    | nil => exact kept
    | cons first rest =>
      obtain ⟨timeout, id⟩ := first
      have member : (timeout, id) ∈ server.clientsTimeoutTable := by simp [table]
      obtain ⟨positive, limited⟩ := (kept.exact.2 timeout id).mp member
      dsimp only
      split_ifs with later
      · exact kept
      · cases stored : server.clients id with
        | none =>
          rw [stored] at limited
          exact absurd limited.symm positive
        | some c =>
          rw [stored, Option.bind_some] at limited
          have replied : c.btype ∉ [none, some .postpone, some .shutdown] := by
            intro unlimited
            rw [blockedLimit, if_pos (by simpa using unlimited)] at limited
            exact positive limited.symm
          have blocked : c.btype ≠ none := fun none => replied (by simp [none])
          obtain rfl : c.timeout = timeout := (kept.timeout id c stored blocked).trans limited
          have inside : c.inToTable = true := (kept.listed id c stored).mpr (limited ▸ positive)
          have unblocked := kept.unblock stored blocked false
          rw [unblockClient, removeClientFromTimeoutTable, if_pos inside] at unblocked
          dsimp only
          rw [checkBlockedClientTimeout, if_pos ⟨blocked, positive, Nat.lt_of_not_le later⟩, unblockClientOnTimeout,
            replyToBlockedClientTimedOut, require_of replied]
          apply ih unblocked
          dsimp only
          rw [List.length_erase_of_mem member]
          rw [table] at enough ⊢
          exact Nat.lt_of_succ_lt_succ enough

theorem Kept.step {event : Event} (timed : Timed (server, limits) event) :
    Outcome (step server event) (fun _ => False) (Kept · (limitsAfter server limits event)) := by
  cases event with
  | createClient id =>
    rw [Blocking.step]
    cases stored : server.clients id with
    | none => exact kept.replace (fun _ _ => rfl) (by simp [stored]) (by simp [initClientBlockingState])
    | some c => exact kept
  | client id event =>
    rw [Blocking.step, limitsAfter]
    cases stored : server.clients id with
    | none => exact kept
    | some c =>
      rw [Option.elim_some, Option.elim_some]
      by_cases idle : c.btype = none
      · simp only [clientStep, if_pos idle]
        cases event with
        | freeClient => exact kept.free stored
        | processCommand command => exact kept.process stored idle timed
        | _ => exact kept
      · simp only [clientStep, if_neg idle]
        cases event with
        | freeClient => exact kept.free stored
        | processCommand command => exact kept
        | clientUnblock => exact kept.onTimeout stored (by simp [idle, timed c stored])
        | _ => exact kept.unblock stored idle _
  | handleBlockedClientsTimeout now => exact kept.timeoutLoop now (Nat.lt_succ_self _)

omit kept

end Redis.Blocking

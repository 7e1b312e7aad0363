import Redis.Proof.Acl.Rules

namespace Redis.Acl
open Foundation List
open Redis.Aof (ascii)
variable {rule : CommandRule}

/-- The commands that a rule applies to, without the subcommands of a container. -/
def CommandRule.commands (table : CommandTable) : CommandRule → List RedisCommand
  | .all _ => []
  | .category _ cflag => table.inCategory cflag
  | .command _ cmd => [cmd]
  | .firstArg cmd _ => [cmd]

/-- The rule names the command or its container, or a category of one of them. -/
def CommandRule.relevant (cmd : RedisCommand) : CommandRule → Bool
  | .all _ => true
  | .category _ cflag => cflag ∈ cmd.aclCategories || cmd.parent.any (cflag ∈ ·.aclCategories)
  | .command _ named => named = cmd || (named.parent = none && cmd.parent = some named.toCommandRow)
  | .firstArg _ _ => false

def CommandRule.allows : CommandRule → Bool
  | .all allow => allow
  | .category allow _ => allow
  | .command allow _ => allow
  | .firstArg _ _ => false

/-- The last relevant rule of a history, newest first, is an allowing one. -/
def lastAllows (cmd : RedisCommand) : List CommandRule → Bool
  | [] => false
  | rule :: older => if rule.relevant cmd then rule.allows else lastAllows cmd older

/-- A rule behind the last relevant one allows the first argument. -/
def argAllowed (cmd : RedisCommand) (arg : Sds) : List CommandRule → Bool
  | [] => false
  | .firstArg named allowed :: older => (named = cmd && Aof.sameIgnoringCase arg allowed) || argAllowed cmd arg older
  | rule :: older => !rule.relevant cmd && argAllowed cmd arg older

def permits (cmd : RedisCommand) (argv : List Sds) (history : List CommandRule) : Bool :=
  lastAllows cmd history || argv[1]?.any (argAllowed cmd · history)

/-- The modifiers are applied in order. A modifier that is refused changes nothing. -/
def setAll (table : CommandTable) (s : AclSelector) (ops : List Sds) : Checked AclSelector :=
  ops.foldlM (fun s op => do
    match ← aclSetSelector table s op with
    | .ok s' => return s'
    | .error _ => return s) s

section Relevance
variable {table : CommandTable} {cmd named : RedisCommand}
variable (member : cmd ∈ table.commands)
include member
theorem exists_container {container : CommandRow} (parent : cmd.parent = some container) :
    ∃ named ∈ table.commands, named.toCommandRow = container ∧ named.parent = none ∧ cmd.id ∈ named.touched := by
  obtain ⟨entry, known, rfl | ⟨sub, inside, rfl⟩⟩ := mem_commands.1 member
  · cases parent
  · cases parent
    exact ⟨entry.command, mem_commands.2 ⟨entry, known, .inl rfl⟩, rfl, rfl,
      mem_cons_of_mem _ (mem_map_of_mem inside)⟩

theorem mem_touched_iff (known : named ∈ table.commands) :
    cmd.id ∈ named.touched ↔ named = cmd ∨ named.parent = none ∧ cmd.parent = some named.toCommandRow := by
  constructor
  · intro touched
    rcases mem_cons.1 touched with same | inside
    · exact .inl (eq_of_id known member same.symm)
    · obtain ⟨sub, listed, same⟩ := mem_map.1 inside
      obtain ⟨entry, row, rfl | ⟨other, -, rfl⟩⟩ := mem_commands.1 known
      · have found := mem_commands.2 ⟨entry, row, .inr ⟨sub, listed, rfl⟩⟩
        obtain rfl := eq_of_id found member same
        exact .inr ⟨rfl, rfl⟩
      · cases listed
  · rintro (rfl | ⟨top, parent⟩)
    · exact mem_cons_self ..
    · obtain ⟨container, listed, row, -, touched⟩ := exists_container member parent
      rwa [eq_of_id known listed (congrArg CommandRow.id row).symm]

/-- A rule for commands touches the bits of the commands it is relevant to. -/
theorem touched_iff_relevant (known : ∀ named ∈ rule.commands table, named ∈ table.commands)
    (kind : (∃ allow cflag, rule = .category allow cflag) ∨ ∃ allow named, rule = .command allow named) :
    cmd.id ∈ (rule.commands table).flatMap (·.touched) ↔ rule.relevant cmd = true := by
  rcases kind with ⟨allow, cflag, rfl⟩ | ⟨allow, named, rfl⟩
  · simp only [mem_flatMap, CommandRule.relevant, Bool.or_eq_true, decide_eq_true_eq, Option.any_eq_true]
    constructor
    · rintro ⟨named, inside, touched⟩
      have flagged : cflag ∈ named.aclCategories := by simpa using (mem_filter.1 inside).2
      rcases (mem_touched_iff member (known named inside)).1 touched with rfl | ⟨-, parent⟩
      · exact .inl flagged
      · exact .inr ⟨_, parent, by simpa using flagged⟩
    · rintro (flagged | ⟨container, parent, flagged⟩)
      · exact ⟨cmd, mem_filter.2 ⟨member, by simpa using flagged⟩, mem_cons_self ..⟩
      · obtain ⟨named, listed, row, -, touched⟩ := exists_container member parent
        refine ⟨named, mem_filter.2 ⟨listed, ?_⟩, touched⟩
        rw [show named.aclCategories = container.aclCategories from congrArg CommandRow.aclCategories row]
        simpa using flagged
  · simp only [CommandRule.commands, flatMap_cons, flatMap_nil, append_nil, CommandRule.relevant,
      Bool.or_eq_true, decide_eq_true_eq, Bool.and_eq_true]
    exact mem_touched_iff member (known named (mem_singleton_self named))

/-- The first arguments of a command that is no subcommand are dropped by the rules that are relevant to it. -/
theorem reset_iff_relevant (top : cmd.parent = none) (known : ∀ named ∈ rule.commands table, named ∈ table.commands)
    (kind : (∃ allow cflag, rule = .category allow cflag) ∨ ∃ allow named, rule = .command allow named) :
    cmd.id ∈ (rule.commands table).map (·.id) ↔ rule.relevant cmd = true := by
  rw [← touched_iff_relevant member known kind, mem_map, mem_flatMap]
  constructor
  · rintro ⟨named, inside, same⟩
    exact ⟨named, inside, same ▸ mem_cons_self ..⟩
  · rintro ⟨named, inside, touched⟩
    rcases (mem_touched_iff member (known named inside)).1 touched with rfl | ⟨-, parent⟩
    · exact ⟨named, inside, rfl⟩
    · simp [top] at parent
end Relevance

section Run
variable {table : CommandTable} {s : AclSelector} {history : List CommandRule}

def AclSelector.firstargs (s : AclSelector) : Nat → List Sds := s.allowedFirstargs.getD fun _ => []

/-- The selector holds what the history of the rules says. -/
structure Reflects (table : CommandTable) (history : List CommandRule) (s : AclSelector) : Prop where
  bits : ∀ cmd ∈ table.commands, cmd.id < userCommandBitsCount →
    s.allowedCommands.getLsbD cmd.id = lastAllows cmd history
  all : s.allcommands = true → ∀ id < userCommandBitsCount, s.allowedCommands.getLsbD id = true
  args : ∀ cmd ∈ table.commands, cmd.id < userCommandBitsCount → ∀ arg,
    (s.firstargs cmd.id).any (Aof.sameIgnoringCase arg ·) = argAllowed cmd arg history
  subs : ∀ cmd ∈ table.commands, cmd.parent.isSome → s.firstargs cmd.id = []

theorem Reflects.of_same {s' : AclSelector} (reflects : Reflects table history s) (same : SameCommands s s') :
    Reflects table history s' := by
  have firstargs : s'.firstargs = s.firstargs := by rw [AclSelector.firstargs, same.allowedFirstargs]; rfl
  constructor
  · rw [same.allowedCommands]
    exact reflects.bits
  · rw [same.allowedCommands, same.allcommands]
    exact reflects.all
  · rw [firstargs]
    exact reflects.args
  · rw [firstargs]
    exact reflects.subs

theorem setBits_all (touched : List Nat) (value : Bool) (s : AclSelector)
    (all : s.allcommands = true → ∀ id < userCommandBitsCount, s.allowedCommands.getLsbD id = true)
    (flag : (setBits touched value s).allcommands = true) (id : Nat) (inside : id < userCommandBitsCount) :
    (setBits touched value s).allowedCommands.getLsbD id = true := by
  simp only [setBits, Bool.and_eq_true, Bool.or_eq_true, all_eq_true, decide_eq_true_eq] at flag
  obtain ⟨before, allow | outside⟩ := flag
  · rw [setBits_get touched value s inside, all before id inside, allow, ite_self]
  · rw [setBits_get touched value s inside, all before id inside, if_neg]
    exact fun member => Nat.not_le.2 inside (outside id member)

theorem not_fault {commands : List RedisCommand} (fits : ∀ named ∈ commands, named.id < userCommandBitsCount) :
    ¬ ∃ id ∈ commands.map (·.id), userCommandBitsCount ≤ id := by
  rintro ⟨id, inside, outside⟩
  obtain ⟨named, listed, rfl⟩ := mem_map.1 inside
  exact absurd (fits named listed) (by omega)

theorem reflects_changed (reflects : Reflects table history s)
    (known : ∀ named ∈ rule.commands table, named ∈ table.commands)
    (fits : ∀ named ∈ rule.commands table, named.id < userCommandBitsCount)
    (kind : (∃ allow cflag, rule = .category allow cflag) ∨ ∃ allow named, rule = .command allow named) :
    Outcome (changed ((rule.commands table).flatMap (·.touched)) ((rule.commands table).map (·.id)) rule.allows s)
      (fun _ => False) (Reflects table (rule :: history)) := by
  rw [changed, if_neg fun fault => not_fault fits fault.2]
  have args : ∀ id, (resetArgs ((rule.commands table).map (·.id)) (setBits ((rule.commands table).flatMap (·.touched))
      rule.allows s)).firstargs id = if id ∈ (rule.commands table).map (·.id) then [] else s.firstargs id := by
    simp only [resetArgs, AclSelector.firstargs, setBits_firstargs]
    cases s.allowedFirstargs <;> simp
  have argHistory : ∀ cmd arg, argAllowed cmd arg (rule :: history) = (!rule.relevant cmd && argAllowed cmd arg history) := by
    intro cmd arg
    rcases kind with ⟨allow, cflag, rfl⟩ | ⟨allow, named, rfl⟩ <;> rfl
  constructor
  · intro cmd member inside
    show (setBits _ _ s).allowedCommands.getLsbD cmd.id = if rule.relevant cmd = true then _ else _
    rw [setBits_get _ _ _ inside, reflects.bits cmd member inside]
    exact if_congr (touched_iff_relevant member known kind) rfl rfl
  · exact setBits_all _ _ s reflects.all
  · intro cmd member inside arg
    rw [args, argHistory, ← reflects.args cmd member inside arg]
    cases parent : cmd.parent with
    | some container => simp [reflects.subs cmd member (by simp [parent])]
    | none =>
      have reset := reset_iff_relevant member parent known kind
      cases relevant : rule.relevant cmd with
      | true => rw [if_pos (reset.2 relevant)]; rfl
      | false => rw [if_neg fun dropped => by simp [reset.1 dropped] at relevant]; rfl
  · intro cmd member child
    rw [args, reflects.subs cmd member child, ite_self]

theorem any_withArg (firstargs : Nat → List Sds) (id cell : Nat) (arg allowed : Sds) :
    (withArg firstargs id allowed cell).any (Aof.sameIgnoringCase arg ·) =
      ((cell = id && Aof.sameIgnoringCase arg allowed) || (firstargs cell).any (Aof.sameIgnoringCase arg ·)) := by
  unfold withArg
  by_cases same : cell = id
  · subst same
    split_ifs with present
    · obtain ⟨item, inside, equal⟩ := any_eq_true.1 present
      cases matching : Aof.sameIgnoringCase arg allowed with
      | false => simp
      | true =>
        simp only [Aof.sameIgnoringCase, decide_eq_true_eq] at matching equal
        have found : (firstargs cell).any (Aof.sameIgnoringCase arg ·) = true :=
          any_eq_true.2 ⟨item, inside, by simp [Aof.sameIgnoringCase, matching, equal]⟩
        simp [found]
    · simp [Bool.or_comm]
  · split_ifs <;> simp [same]

theorem reflects_rule (reflects : Reflects table history s)
    (known : ∀ named ∈ rule.commands table, named ∈ table.commands)
    (top : ∀ named arg, rule = .firstArg named arg → named.parent = none)
    (fits : ∀ named ∈ rule.commands table, named.id < userCommandBitsCount) :
    Outcome (rule.apply table s) (fun _ => False) (Reflects table (rule :: history)) := by
  cases rule with
  | all allow =>
    have bit : ∀ id < userCommandBitsCount, (changeAllCommands s allow).allowedCommands.getLsbD id = allow := by
      intro id inside
      have width : id < 1024 := inside
      cases allow with
      | true => exact (BitVec.getLsbD_allOnes ..).trans (decide_eq_true width)
      | false => exact BitVec.getLsbD_zero
    constructor
    · intro cmd member inside
      simpa [lastAllows, CommandRule.relevant, CommandRule.allows] using bit cmd.id inside
    · intro flag id inside
      rw [bit id inside]
      exact flag
    · intro cmd member inside arg
      rfl
    · intro cmd member child
      rfl
  | category allow cflag => exact reflects_changed reflects known fits (.inl ⟨allow, cflag, rfl⟩)
  | command allow named =>
    have result := reflects_changed reflects known fits (.inr ⟨allow, named, rfl⟩)
    simp only [CommandRule.commands, flatMap_cons, flatMap_nil, append_nil, map_cons, map_nil] at result
    exact result
  | firstArg named allowed =>
    rw [CommandRule.apply, aclAddAllowedFirstArg_eq, if_pos (fits named (mem_singleton_self named))]
    have listed := known named (mem_singleton_self named)
    constructor
    · exact reflects.bits
    · exact reflects.all
    · intro cmd member inside arg
      show (withArg s.firstargs named.id allowed cmd.id).any _ = _
      rw [any_withArg, reflects.args cmd member inside arg]
      congr 2
      exact decide_eq_decide.2 ⟨fun same => eq_of_id listed member same.symm, fun same => same ▸ rfl⟩
    · intro cmd member child
      have apart : cmd.id ≠ named.id := by
        intro same
        rw [eq_of_id member listed same, top named allowed rfl] at child
        cases child
      show withArg s.firstargs named.id allowed cmd.id = []
      rw [withArg]
      split_ifs
      · exact reflects.subs cmd member child
      · rw [Function.update_of_ne apart]
        exact reflects.subs cmd member child

theorem readBarred_known {text : Sds} (terminated : 0 ∉ text) (read : readBarred table text = some rule) :
    (∀ named ∈ rule.commands table, named ∈ table.commands) ∧
      ∀ named arg, rule = .firstArg named arg → named.parent = none := by
  simp only [readBarred] at read
  split at read
  next => cases read
  next cmd found =>
    have listed := (lookup_fullname (fun zero => terminated (mem_of_mem_take zero)) found).1
    split_ifs at read with rejected container
    · obtain ⟨sub, known, rfl⟩ := Option.map_eq_some_iff.1 read
      exact ⟨by simpa [CommandRule.commands] using (lookup_fullname terminated known).1, by simp⟩
    · obtain rfl := Option.some.inj read
      rw [not_or] at rejected
      constructor
      · simpa [CommandRule.commands] using listed
      · intro named arg same
        cases same
        simpa using rejected.1

theorem ruleOf_known {op : Sds} (read : ruleOf table op = some rule) :
    (∀ named ∈ rule.commands table, named ∈ table.commands) ∧
      ∀ named arg, rule = .firstArg named arg → named.parent = none := by
  have terminated := zero_notMem_cString (op.drop 1)
  rcases ruleOf_cases read with ⟨allow, rfl⟩ | ⟨-, -, barred⟩ | ⟨allow, cmd, -, known, rfl⟩ | ⟨allow, cflag, -, -, rfl⟩
  · simp [CommandRule.commands]
  · exact readBarred_known terminated barred
  · exact ⟨by simpa [CommandRule.commands] using (lookup_fullname terminated known).1, by simp⟩
  · exact ⟨fun named inside => (mem_filter.1 inside).1, by simp⟩

theorem reflects_run (reflects : Reflects table history s) (ops : List Sds)
    (fits : ∀ rule ∈ ops.filterMap (ruleOf table), ∀ named ∈ rule.commands table, named.id < userCommandBitsCount) :
    Outcome (setAll table s ops) (fun _ => False) (Reflects table ((ops.filterMap (ruleOf table)).reverse ++ history)) := by
  induction ops generalizing s history with
  | nil => exact reflects
  | cons op ops ih =>
    simp only [setAll, foldlM_cons, bind_assoc]
    cases read : ruleOf table op with
    | none =>
      rw [filterMap_cons_none read] at fits ⊢
      apply Outcome.bind (aclSetSelector_other s read)
      intro result same
      cases result with
      | ok s' => exact ih (reflects.of_same (same s' rfl)) fits
      | error errno => exact ih reflects fits
    | some rule =>
      rw [filterMap_cons_some read] at fits ⊢
      rw [aclSetSelector_rule s read, bind_assoc, reverse_cons, append_assoc]
      have known := ruleOf_known read
      apply Outcome.bind (reflects_rule reflects known.1 known.2 (fits rule (mem_cons_self ..)))
      intro s' next
      exact ih ⟨next.bits, next.all, next.args, next.subs⟩ (forall_mem_cons.mp fits).2

theorem reflects_create (table : CommandTable) (aclPubsubDefault : Bool) :
    Reflects table [] (aclCreateSelector aclPubsubDefault) := by
  constructor
  · intro cmd member inside
    exact BitVec.getLsbD_zero
  · intro flag
    cases flag
  · intro cmd member inside arg
    rfl
  · intro cmd member child
    rfl

theorem matchFirstArg_eq {cmd : RedisCommand} (top : cmd.parent = none) {argv : List Sds} {arg : Sds}
    (second : argv[1]? = some arg) (items : List Sds) :
    matchFirstArg cmd argv items = .ok (items.any (Aof.sameIgnoringCase arg ·)) := by
  induction items with
  | nil => rfl
  | cons item items ih =>
    have index : (if cmd.parent.isSome = true then 2 else 1) = 1 := by simp [top]
    rw [matchFirstArg, index, readCell_of second, ok_bind, any_cons]
    cases same : Aof.sameIgnoringCase arg item with
    | true => rfl
    | false => simpa using ih

theorem checkCmd_eq (reflects : Reflects table history s) {cmd : RedisCommand} (member : cmd ∈ table.commands)
    (auth : cmd.noAuth = false) (inside : cmd.id < userCommandBitsCount) (argv : List Sds) :
    aclSelectorCheckCmd s cmd argv = .ok (permits cmd argv history) := by
  have bit : aclGetSelectorCommandBit s cmd.id = lastAllows cmd history := by
    rw [aclGetSelectorCommandBit, if_neg (by omega), reflects.bits cmd member inside]
  rw [aclSelectorCheckCmd, permits]
  cases last : lastAllows cmd history with
  | true =>
    rw [last] at bit
    simp [bit]
  | false =>
    have flag : ¬ (s.allcommands = true ∨ cmd.noAuth = true) := by
      rintro (all | free)
      · rw [← reflects.bits cmd member inside, reflects.all all cmd.id inside] at last
        cases last
      · simp [auth] at free
    have args := fun arg => reflects.args cmd member inside arg
    rw [if_neg flag, bit, last, if_neg Bool.false_ne_true]
    cases second : argv[1]? with
    | none => rw [if_pos (by simpa using List.getElem?_eq_none_iff.1 second)]; rfl
    | some arg =>
      have long : 1 < argv.length := (List.getElem?_eq_some_iff.1 second).1
      rw [if_neg (by omega), Option.any_some, ← args arg, AclSelector.firstargs]
      cases allocated : s.allowedFirstargs with
      | none => rfl
      | some firstargs =>
        dsimp only
        rw [if_pos inside]
        cases parent : cmd.parent with
        | none => exact matchFirstArg_eq parent second _
        | some container =>
          have empty := reflects.subs cmd member (by simp [parent])
          simp only [AclSelector.firstargs, allocated, Option.getD_some] at empty ⊢
          rw [empty]
          rfl

/-- As long as the rules apply to commands that fit the bitmap, no access is out of bounds and the last relevant rule
decides for every command that fits it. -/
theorem last_command_rule_wins (table : CommandTable) (aclPubsubDefault : Bool) (ops : List Sds)
    (fits : ∀ rule ∈ ops.filterMap (ruleOf table), ∀ named ∈ rule.commands table, named.id < userCommandBitsCount) :
    Outcome (setAll table (aclCreateSelector aclPubsubDefault) ops) (fun _ => False) fun s =>
      ∀ cmd ∈ table.commands, cmd.noAuth = false → cmd.id < userCommandBitsCount → ∀ argv,
        aclSelectorCheckCmd s cmd argv = .ok (permits cmd argv (ops.filterMap (ruleOf table)).reverse) := by
  have run := reflects_run (reflects_create table aclPubsubDefault) ops fits
  rw [append_nil] at run
  exact run.mono fun s reflects cmd member auth inside argv => checkCmd_eq reflects member auth inside argv
end Run

/-- A table with a command of one category that is the first of the identifiers. -/
def sampleTable : CommandTable where
  entries := [⟨⟨ascii "get", 0, [.read], false⟩, none⟩]
  calls := [ascii "get"]
  names := by simp
  subnames := by decide
  barless := by decide
  terminated := by decide
  handedOut := by decide

theorem last_command_rule_wins_sample :
    Outcome (setAll sampleTable (aclCreateSelector false) [ascii "+@read", ascii "-GET", ascii "+get|a"]) (fun _ => False)
      fun s => ∀ cmd ∈ sampleTable.commands, cmd.noAuth = false → cmd.id < userCommandBitsCount → ∀ argv,
        aclSelectorCheckCmd s cmd argv = .ok (permits cmd argv
          ([ascii "+@read", ascii "-GET", ascii "+get|a"].filterMap (ruleOf sampleTable)).reverse) :=
  last_command_rule_wins sampleTable false [ascii "+@read", ascii "-GET", ascii "+get|a"] (by decide +kernel)

theorem lookup_aclGetCommandID {ids : CommandIds} {name : Sds} (lower : name.map tolower = name)
    (fresh : ids.commandId.lookup name = none) :
    (aclGetCommandID ids name).1.commandId.lookup name = some ids.nextid := by
  simp [aclGetCommandID, lower, fresh]

/-- The names of commands that modules register. -/
def moduleNames (count : Nat) : List Sds := (List.range count).map fun index => List.replicate (index + 1) 97

theorem commandIds_moduleNames (count : Nat) (small : count ≤ 1023) :
    (commandIds (moduleNames count)).nextid = (if count < 1023 then count else 1024) ∧
      ∀ pair ∈ (commandIds (moduleNames count)).commandId, ∃ index < count, pair.1 = List.replicate (index + 1) 97 := by
  induction count with
  | zero => exact ⟨rfl, by simp [commandIds, moduleNames]⟩
  | succ count ih =>
    obtain ⟨next, named⟩ := ih (by omega)
    have split : commandIds (moduleNames (count + 1)) =
        (aclGetCommandID (commandIds (moduleNames count)) (List.replicate (count + 1) 97)).1 := by
      rw [← commandIds_concat]
      simp [moduleNames, range_succ]
    have lower : (List.replicate (count + 1) (97 : UInt8)).map tolower = List.replicate (count + 1) 97 := by
      rw [map_replicate]
      rfl
    have fresh : (commandIds (moduleNames count)).commandId.lookup (List.replicate (count + 1) 97) = none := by
      rw [lookup_eq_none_iff]
      intro pair member
      obtain ⟨index, before, same⟩ := named pair member
      rw [same]
      simp only [bne_iff_ne, ne_eq, replicate_inj]
      omega
    rw [split, aclGetCommandID, lower, fresh]
    constructor
    · simp only [next, userCommandBitsCount]
      split_ifs <;> omega
    · intro pair member
      rcases mem_cons.1 member with rfl | old
      · exact ⟨count, by omega, rfl⟩
      · obtain ⟨index, before, same⟩ := named pair old
        exact ⟨index, by omega, same⟩

/-- A table whose only command was registered behind 1023 others. -/
def crowdedTable : CommandTable where
  entries := [⟨⟨ascii "x", 1024, [], false⟩, none⟩]
  calls := moduleNames 1023 ++ [ascii "x"]
  names := by simp
  subnames := by decide
  barless := by decide
  terminated := by decide
  handedOut := by
    obtain ⟨next, named⟩ := commandIds_moduleNames 1023 le_rfl
    have fresh : (commandIds (moduleNames 1023)).commandId.lookup (ascii "x") = none := by
      rw [lookup_eq_none_iff]
      intro pair member
      obtain ⟨index, -, same⟩ := named pair member
      rw [same, replicate_succ]
      rfl
    intro entry known cmd inside
    obtain rfl := mem_singleton.1 known
    obtain rfl := mem_singleton.1 inside
    have found := lookup_aclGetCommandID (show (ascii "x").map tolower = ascii "x" from rfl) fresh
    rw [← commandIds_concat, next] at found
    exact found

/-- A first argument of that command is written behind the table of first arguments. -/
theorem first_argument_out_of_bounds :
    Outcome (setAll crowdedTable (aclCreateSelector false) [ascii "+x|1"]) (fun fault => fault = .outOfBounds)
      fun _ => False := by
  decide +kernel

end Redis.Acl

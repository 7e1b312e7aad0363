import Mathlib.Data.List.TakeWhile
import Redis.Construction.Acl.Selector

namespace Redis.Acl
open Foundation List
open Redis.Aof (ascii)

section Table
/-- Every command of the table with its subcommands. -/
def CommandTable.commands (table : CommandTable) : List RedisCommand := table.entries.flatMap (·.allCommands)

structure IdsOk (ids : CommandIds) : Prop where
  below : ∀ pair ∈ ids.commandId, pair.2 < ids.nextid
  distinct : (ids.commandId.map Prod.snd).Nodup
  reserved : ∀ pair ∈ ids.commandId, pair.2 ≠ userCommandBitsCount - 1
  next : ids.nextid ≠ userCommandBitsCount - 1

theorem idsOk_get {ids : CommandIds} (ok : IdsOk ids) (name : Sds) : IdsOk (aclGetCommandID ids name).1 := by
  cases found : ids.commandId.lookup (name.map tolower) with
  | some id => simpa [aclGetCommandID, found] using ok
  | none =>
    simp only [aclGetCommandID, found]
    have later : ids.nextid < if ids.nextid + 1 = userCommandBitsCount - 1 then ids.nextid + 1 + 1 else ids.nextid + 1 := by
      split_ifs <;> omega
    constructor
    · intro pair member
      rcases mem_cons.1 member with new | old
      · subst new
        exact later
      · exact (ok.below pair old).trans later
    · simp only [map_cons, nodup_cons]
      constructor
      · intro used
        obtain ⟨pair, member, same⟩ := mem_map.1 used
        exact absurd (ok.below pair member) (by omega)
      · exact ok.distinct
    · intro pair member
      rcases mem_cons.1 member with new | old
      · subst new
        exact ok.next
      · exact ok.reserved pair old
    · show (if ids.nextid + 1 = userCommandBitsCount - 1 then ids.nextid + 1 + 1 else ids.nextid + 1) ≠ _
      split_ifs <;> omega

theorem commandIds_concat (calls : List Sds) (name : Sds) :
    commandIds (calls ++ [name]) = (aclGetCommandID (commandIds calls) name).1 := by
  simp [commandIds]

theorem idsOk_commandIds (calls : List Sds) : IdsOk (commandIds calls) := by
  induction calls using List.reverseRecOn with
  | nil => exact ⟨by simp [commandIds], by simp [commandIds], by simp [commandIds], by decide⟩
  | append_singleton calls name ih =>
    rw [commandIds_concat]
    exact idsOk_get ih name

theorem mem_of_lookup {pairs : List (Sds × Nat)} {name : Sds} {id : Nat} (found : pairs.lookup name = some id) :
    (name, id) ∈ pairs := by
  obtain ⟨before, after, split, -⟩ := lookup_eq_some_iff.1 found
  simp [split]

theorem tolower_eq_bar (char : UInt8) : tolower char = 124 ↔ char = 124 := by
  unfold tolower
  split_ifs with upper
  · simp only [← UInt8.toNat_inj, UInt8.le_iff_toNat_le] at upper ⊢
    simp at upper ⊢
    omega
  · rfl

theorem bar_mem_lower (name : Sds) : 124 ∈ name.map tolower ↔ 124 ∈ name := by
  simp [tolower_eq_bar]

variable {table : CommandTable} {cmd other : RedisCommand}

theorem mem_commands : cmd ∈ table.commands ↔ ∃ entry ∈ table.entries, cmd = entry.command ∨
    ∃ sub ∈ entry.subcommandsDict.getD [], cmd = entry.subcommand sub := by
  simp only [CommandTable.commands, mem_flatMap, TableEntry.allCommands, mem_cons, mem_map, @eq_comm _ _ cmd]

theorem entry_eq {entry entry' : TableEntry} (member : entry ∈ table.entries) (member' : entry' ∈ table.entries)
    (same : entry.name.map tolower = entry'.name.map tolower) : entry = entry' :=
  inj_on_of_nodup_map table.names member member' same

theorem sub_eq {entry : TableEntry} {sub sub' : CommandRow} (member : entry ∈ table.entries)
    (inside : sub ∈ entry.subcommandsDict.getD []) (inside' : sub' ∈ entry.subcommandsDict.getD [])
    (same : sub.name.map tolower = sub'.name.map tolower) : sub = sub' :=
  inj_on_of_nodup_map (table.subnames entry member) inside inside' same

variable (member : cmd ∈ table.commands)
include member
theorem eq_of_fullname (member' : other ∈ table.commands)
    (same : cmd.fullname.map tolower = other.fullname.map tolower) : cmd = other := by
  obtain ⟨entry, known, kind⟩ := mem_commands.1 member
  obtain ⟨entry', known', kind'⟩ := mem_commands.1 member'
  have barless : ∀ {entry : TableEntry}, entry ∈ table.entries → 124 ∉ entry.name.map tolower := by
    intro entry known bar
    exact table.barless entry known entry.command (by simp [TableEntry.allCommands]) ((bar_mem_lower _).1 bar)
  have subBarless : ∀ {entry : TableEntry} {sub : CommandRow}, entry ∈ table.entries →
      sub ∈ entry.subcommandsDict.getD [] → 124 ∉ sub.name.map tolower := by
    intro entry sub known inside bar
    refine table.barless entry known (entry.subcommand sub) ?_ ((bar_mem_lower _).1 bar)
    exact mem_cons_of_mem _ (mem_map_of_mem inside)
  have bar : tolower 124 = 124 := by decide
  rcases kind with rfl | ⟨sub, inside, rfl⟩ <;> rcases kind' with rfl | ⟨sub', inside', rfl⟩ <;>
    simp only [RedisCommand.fullname, TableEntry.command, TableEntry.subcommand, map_append, map_cons,
      bar, append_assoc, singleton_append] at same
  · rw [entry_eq known known' same]
  · exact absurd (by simp [same]) (barless known)
  · exact absurd (by simp [← same]) (barless known')
  · obtain ⟨container, -, name⟩ :=
      (append_cons_inj_of_notMem (barless known) (subBarless known inside)).1 same
    obtain rfl := entry_eq known known' container
    rw [sub_eq known inside inside' name]

theorem handedOut : (cmd.fullname.map tolower, cmd.id) ∈ (commandIds table.calls).commandId := by
  obtain ⟨entry, known, inside⟩ := mem_flatMap.1 member
  exact mem_of_lookup (table.handedOut entry known cmd inside)

theorem eq_of_id (member' : other ∈ table.commands) (same : cmd.id = other.id) : cmd = other := by
  have ids := idsOk_commandIds table.calls
  have pair := inj_on_of_nodup_map ids.distinct (handedOut member) (handedOut member') same
  exact eq_of_fullname member member' (congrArg Prod.fst pair)

theorem id_ne_reserved : cmd.id ≠ userCommandBitsCount - 1 :=
  (idsOk_commandIds table.calls).reserved _ (handedOut member)
end Table

section Effect
variable {table : CommandTable}

/-- One bit of the bitmap is changed. -/
def setBit (value : Bool) (bits : BitVec 1024) (id : Nat) : BitVec 1024 :=
  if id ≥ userCommandBitsCount then bits else if value then bits ||| (1#1024 <<< id) else bits &&& ~~~(1#1024 <<< id)

/-- The bits of several commands are changed. -/
def setBits (touched : List Nat) (value : Bool) (s : AclSelector) : AclSelector :=
  { s with
    allowedCommands := touched.foldl (setBit value) s.allowedCommands
    allcommands := s.allcommands && (value || touched.all (userCommandBitsCount ≤ ·)) }

/-- The first arguments of several commands are dropped. -/
def resetArgs (resets : List Nat) (s : AclSelector) : AclSelector :=
  { s with allowedFirstargs := s.allowedFirstargs.map fun firstargs id => if id ∈ resets then [] else firstargs id }

/-- A change of several commands. The table of first arguments is read for each of them when it exists. -/
def changed (touched resets : List Nat) (value : Bool) (s : AclSelector) : Checked AclSelector :=
  if s.allowedFirstargs.isSome ∧ ∃ id ∈ resets, userCommandBitsCount ≤ id then .error .outOfBounds
  else .ok (resetArgs resets (setBits touched value s))

theorem getLsbD_one_shiftLeft (id : Nat) {cell : Nat} (inside : cell < userCommandBitsCount) :
    (1#1024 <<< id).getLsbD cell = decide (cell = id) := by
  have width : cell < 1024 := inside
  by_cases same : cell = id
  · simp [same, same ▸ width]
  · have apart : cell < id ∨ cell - id ≠ 0 := by omega
    rcases apart with before | behind
    · simp [same, before]
    · simp [same, behind]

theorem setBit_get (value : Bool) (bits : BitVec 1024) (id : Nat) {cell : Nat} (inside : cell < userCommandBitsCount) :
    (setBit value bits id).getLsbD cell = if cell = id then value else bits.getLsbD cell := by
  unfold setBit
  by_cases outside : id ≥ userCommandBitsCount
  · rw [if_pos outside, if_neg (by omega)]
  · rw [if_neg outside]
    have width : cell < 1024 := inside
    cases value with
    | true =>
      simp only [if_true, BitVec.getLsbD_or, getLsbD_one_shiftLeft id inside]
      by_cases same : cell = id <;> simp [same]
    | false =>
      simp only [Bool.false_eq_true, if_false, BitVec.getLsbD_and, BitVec.getLsbD_not,
        getLsbD_one_shiftLeft id inside]
      by_cases same : cell = id <;> simp [same, width]

theorem setBits_get (touched : List Nat) (value : Bool) (s : AclSelector) {cell : Nat}
    (inside : cell < userCommandBitsCount) :
    (setBits touched value s).allowedCommands.getLsbD cell =
      if cell ∈ touched then value else s.allowedCommands.getLsbD cell := by
  induction touched using List.reverseRecOn with
  | nil => simp [setBits]
  | append_singleton touched id ih =>
    simp only [setBits, foldl_append, foldl_cons, foldl_nil] at ih ⊢
    rw [setBit_get _ _ _ inside, ih]
    by_cases same : cell = id <;> simp [same]

theorem setBits_firstargs (touched : List Nat) (value : Bool) (s : AclSelector) :
    (setBits touched value s).allowedFirstargs = s.allowedFirstargs := rfl

theorem setBits_append (touched touched' : List Nat) (value : Bool) (s : AclSelector) :
    setBits touched' value (setBits touched value s) = setBits (touched ++ touched') value s := by
  cases value <;> simp [setBits, Bool.and_assoc]

theorem aclSetSelectorCommandBit_eq (s : AclSelector) (id : Nat) (value : Bool) :
    aclSetSelectorCommandBit s id value = setBits [id] value s := by
  unfold aclSetSelectorCommandBit
  cases value <;> split_ifs <;> simp_all [setBits, setBit]

theorem foldl_setCommandBit (subs : List CommandRow) (value : Bool) (s : AclSelector) :
    subs.foldl (fun s sub => aclSetSelectorCommandBit s sub.id value) s = setBits (subs.map (·.id)) value s := by
  induction subs generalizing s with
  | nil => simp [setBits]
  | cons sub subs ih =>
    rw [foldl_cons, ih, aclSetSelectorCommandBit_eq, setBits_append]
    rfl

theorem resetArgs_append (first second : List Nat) (s : AclSelector) :
    resetArgs second (resetArgs first s) = resetArgs (first ++ second) s := by
  unfold resetArgs
  cases s.allowedFirstargs with
  | none => rfl
  | some firstargs =>
    simp only [Option.map_some]
    congr 2
    funext id
    by_cases before : id ∈ first <;> by_cases behind : id ∈ second <;> simp [behind]

theorem changed_bind (touched touched' resets resets' : List Nat) (value : Bool) (s : AclSelector) :
    (changed touched resets value s >>= changed touched' resets' value) =
      changed (touched ++ touched') (resets ++ resets') value s := by
  have kept : (resetArgs resets (setBits touched value s)).allowedFirstargs.isSome = s.allowedFirstargs.isSome :=
    Option.isSome_map
  have reset : setBits touched' value (resetArgs resets (setBits touched value s)) =
    resetArgs resets (setBits touched' value (setBits touched value s)) := rfl
  unfold changed
  by_cases fault : s.allowedFirstargs.isSome ∧ ∃ id ∈ resets, userCommandBitsCount ≤ id
  · obtain ⟨allocated, id, member, outside⟩ := fault
    rw [if_pos ⟨allocated, id, member, outside⟩, if_pos ⟨allocated, id, mem_append_left _ member, outside⟩]
    rfl
  · rw [if_neg fault, ok_bind, kept, reset, setBits_append, resetArgs_append]
    congr 1
    simp only [mem_append, or_and_right, exists_or]
    simp only [not_and] at fault
    apply propext
    constructor
    · exact fun ⟨allocated, outside⟩ => ⟨allocated, .inr outside⟩
    · rintro ⟨allocated, outside | outside⟩
      · exact absurd outside (fault allocated)
      · exact ⟨allocated, outside⟩

/-- The commands whose bits change with a command. -/
def RedisCommand.touched (cmd : RedisCommand) : List Nat := cmd.id :: (cmd.subcommandsDict.getD []).map (·.id)

theorem aclResetFirstArgsForCommand_eq (s : AclSelector) (id : Nat) : aclResetFirstArgsForCommand s id =
      if s.allowedFirstargs.isSome ∧ userCommandBitsCount ≤ id then .error .outOfBounds else .ok (resetArgs [id] s) := by
  obtain ⟨_, _, _, _, allocated, _, _, _⟩ := s
  cases allocated with
  | none => rfl
  | some firstargs =>
    by_cases fits : id < userCommandBitsCount
    · have update : Function.update firstargs id [] = fun cell => if cell ∈ [id] then [] else firstargs cell := by
        funext cell
        by_cases same : cell = id <;> simp [Function.update]
      simp [aclResetFirstArgsForCommand, resetArgs, Nat.not_le.2 fits, update]
    · simp [aclResetFirstArgsForCommand, Nat.not_lt.1 fits]

theorem aclChangeSelectorPerm_eq (s : AclSelector) (cmd : RedisCommand) (allow : Bool) :
    aclChangeSelectorPerm s cmd allow = changed cmd.touched [cmd.id] allow s := by
  unfold aclChangeSelectorPerm changed
  rw [aclResetFirstArgsForCommand_eq, aclSetSelectorCommandBit_eq, setBits_firstargs]
  simp only [mem_singleton, exists_eq_left]
  split_ifs with fault
  · rfl
  · rw [ok_bind, foldl_setCommandBit]
    exact congrArg (fun s' => Except.ok (resetArgs [cmd.id] s')) (setBits_append [cmd.id] _ allow s)

/-- The commands that a category changes. -/
def CommandTable.inCategory (table : CommandTable) (cflag : Category) : List RedisCommand :=
  table.commands.filter (cflag ∈ ·.aclCategories)

theorem changeIfInCategory_foldlM (cflag : Category) (allow : Bool) (commands : List RedisCommand) (s : AclSelector) :
    commands.foldlM (changeIfInCategory cflag allow) s =
      changed ((commands.filter (cflag ∈ ·.aclCategories)).flatMap (·.touched))
        ((commands.filter (cflag ∈ ·.aclCategories)).map (·.id)) allow s := by
  induction commands generalizing s with
  | nil =>
    obtain ⟨_, _, _, _, firstargs, _, _, _⟩ := s
    cases firstargs <;> simp [changed, setBits, resetArgs, pure, Except.pure]
  | cons cmd commands ih =>
    rw [foldlM_cons, changeIfInCategory, funext ih, filter_cons]
    by_cases member : cflag ∈ cmd.aclCategories
    · rw [if_pos member, if_pos (by simpa using member), aclChangeSelectorPerm_eq, changed_bind]
      rfl
    · rw [if_neg member, if_neg (by simpa using member)]
      rfl

theorem setCategory_eq (table : CommandTable) (s : AclSelector) (cflag : Category) (allow : Bool) :
    aclSetSelectorCommandBitsForCategory table.entries s cflag allow =
      changed ((table.inCategory cflag).flatMap (·.touched)) ((table.inCategory cflag).map (·.id)) allow s := by
  rw [CommandTable.inCategory, ← changeIfInCategory_foldlM, CommandTable.commands, aclSetSelectorCommandBitsForCategory]
  generalize table.entries = entries
  induction entries generalizing s with
  | nil => rfl
  | cons entry entries ih => rw [foldlM_cons, flatMap_cons, foldlM_append, funext ih]
end Effect

section Reading
variable {table : CommandTable} {op : Sds}

/-- A command rule as its text is read. -/
inductive CommandRule where
  | all (allow : Bool)
  | category (allow : Bool) (cflag : Category)
  | command (allow : Bool) (cmd : RedisCommand)
  | firstArg (cmd : RedisCommand) (arg : Sds)
  deriving DecidableEq

/-- A rule with a bar names a subcommand of a container or a first argument of another command. -/
def readBarred (table : CommandTable) (rule : Sds) : Option CommandRule :=
  let sub := (rule.reverse.takeWhile (· ≠ 124)).reverse
  match aclLookupCommand table (rule.take (rule.length - sub.length - 1)) with
  | none => none
  | some cmd =>
    if cmd.parent.isSome ∨ sub = [] then none
    else if cmd.subcommandsDict.isSome then (aclLookupCommand table rule).map (.command true)
    else some (.firstArg cmd sub)

def ruleOf (table : CommandTable) (op : Sds) : Option CommandRule :=
  let rule := Aof.cString (op.drop 1)
  if isWord op "allcommands" ∨ isWord op "+@all" then some (.all true)
  else if isWord op "nocommands" ∨ isWord op "-@all" then some (.all false)
  else if op.head? = some 43 ∧ rule.head? ≠ some 64 then
    if 124 ∈ rule then readBarred table rule else (aclLookupCommand table rule).map (.command true)
  else if op.head? = some 45 ∧ rule.head? ≠ some 64 then (aclLookupCommand table rule).map (.command false)
  else if op.head? = some 43 ∨ op.head? = some 45 then
    (aclGetCommandCategoryFlagByName (rule.drop 1)).map (.category (op.head? = some 43))
  else none

theorem ruleOf_cases {rule : CommandRule} (read : ruleOf table op = some rule) : let text := Aof.cString (op.drop 1)
    (∃ allow, rule = .all allow) ∨ (text.head? ≠ some 64 ∧ 124 ∈ text ∧ readBarred table text = some rule) ∨
      (∃ allow cmd, text.head? ≠ some 64 ∧ aclLookupCommand table text = some cmd ∧ rule = .command allow cmd) ∨
      ∃ allow cflag, text.head? = some 64 ∧ aclGetCommandCategoryFlagByName (text.drop 1) = some cflag ∧
        rule = .category allow cflag := by
  simp only [ruleOf] at read
  split_ifs at read with allows denies plus bar minus signed
  · exact .inl ⟨true, (Option.some.inj read).symm⟩
  · exact .inl ⟨false, (Option.some.inj read).symm⟩
  · exact .inr (.inl ⟨plus.2, bar, read⟩)
  · obtain ⟨cmd, known, rfl⟩ := Option.map_eq_some_iff.1 read
    exact .inr (.inr (.inl ⟨true, cmd, plus.2, known, rfl⟩))
  · obtain ⟨cmd, known, rfl⟩ := Option.map_eq_some_iff.1 read
    exact .inr (.inr (.inl ⟨false, cmd, minus.2, known, rfl⟩))
  · obtain ⟨cflag, known, rfl⟩ := Option.map_eq_some_iff.1 read
    refine .inr (.inr (.inr ⟨_, cflag, ?_, known, rfl⟩))
    by_contra other
    exact signed.elim (fun head => plus ⟨head, other⟩) fun head => minus ⟨head, other⟩

/-- What a rule does to the permissions of a selector. -/
def CommandRule.apply (table : CommandTable) (s : AclSelector) : CommandRule → Checked AclSelector
  | .all allow => .ok (changeAllCommands s allow)
  | .category allow cflag =>
    changed ((table.inCategory cflag).flatMap (·.touched)) ((table.inCategory cflag).map (·.id)) allow s
  | .command allow cmd => changed cmd.touched [cmd.id] allow s
  | .firstArg cmd arg => aclAddAllowedFirstArg s cmd.id arg

/-- The rules that are retained after a rule with this text. -/
def retainRule (rules text : Sds) (allow : Bool) : Sds :=
  let kept := aclSelectorRemoveCommandRule rules (text.map tolower)
  (if kept = [] then kept else kept ++ [32]) ++ [if allow then 43 else 45] ++ text.map tolower

def CommandRule.retain (op rules : Sds) : CommandRule → Sds
  | .all _ => []
  | _ => retainRule rules (Aof.cString (op.drop 1)) (op.head? = some 43)

variable (s : AclSelector)

/-- Every key pattern has a permission. -/
def AclSelector.Patterned : Prop := ∀ pat ∈ s.patterns, pat.read = true ∨ pat.write = true

/-- The permissions for commands and the retained rules are the same. -/
structure SameCommands (s s' : AclSelector) : Prop where
  patterned : s.Patterned → s'.Patterned
  allcommands : s'.allcommands = s.allcommands
  allowedCommands : s'.allowedCommands = s.allowedCommands
  allowedFirstargs : s'.allowedFirstargs = s.allowedFirstargs
  commandRules : s'.commandRules = s.commandRules

theorem zero_notMem_cString (s : Sds) : 0 ∉ Aof.cString s := by
  intro member
  simpa using mem_takeWhile_imp member

theorem cString_of_notMem {s : Sds} (terminated : 0 ∉ s) : Aof.cString s = s := by
  rw [Aof.cString, takeWhile_eq_self_iff]
  intro char member
  simpa using fun zero : char = 0 => terminated (zero ▸ member)

theorem sameIgnoringCase_iff {s t : Sds} (first : 0 ∉ s) (second : 0 ∉ t) :
    Aof.sameIgnoringCase s t = true ↔ s.map tolower = t.map tolower := by
  simp [Aof.sameIgnoringCase, cString_of_notMem first, cString_of_notMem second]

theorem entry_terminated {entry : TableEntry} (known : entry ∈ table.entries) : 0 ∉ entry.name :=
  table.terminated entry known entry.command (mem_cons_self ..)

theorem lookup_fullname {name : Sds} {cmd : RedisCommand} (terminated : 0 ∉ name)
    (found : aclLookupCommand table name = some cmd) :
    cmd ∈ table.commands ∧ cmd.fullname.map tolower = name.map tolower := by
  rw [aclLookupCommand, cString_of_notMem terminated, lookupCommandBySdsLogic] at found
  have joined : [124].intercalate (name.splitOn 124) = name := intercalate_splitOn 124
  by_cases empty : name = []
  · simp [sdssplitlen, empty] at found
  rw [sdssplitlen, if_neg empty] at found
  split at found
  next part split =>
    rw [split] at joined
    simp only [List.intercalate, intersperse_singleton, flatten_cons, flatten_nil, append_nil] at joined
    subst joined
    obtain ⟨entry, chosen, rfl⟩ := Option.map_eq_some_iff.1 found
    have known := mem_of_find?_eq_some chosen
    have named := find?_some chosen
    have same := (sameIgnoringCase_iff terminated (entry_terminated known)).1 named
    exact ⟨mem_commands.2 ⟨entry, known, .inl rfl⟩, same.symm⟩
  next part subname split =>
    rw [split] at joined
    simp only [List.intercalate, intersperse_cons_cons, intersperse_singleton, flatten_cons, flatten_nil,
      append_nil] at joined
    subst joined
    simp only [mem_append, not_or] at terminated
    simp only [Option.bind_eq_bind, Option.bind_eq_some_iff, Option.pure_def, Option.some.injEq] at found
    obtain ⟨entry, chosen, subcommands, container, sub, inside, rfl⟩ := found
    have known := mem_of_find?_eq_some chosen
    have member : sub ∈ entry.subcommandsDict.getD [] := by
      simpa [container] using mem_of_find?_eq_some inside
    have named := find?_some chosen
    have same := (sameIgnoringCase_iff terminated.1 (entry_terminated known)).1 named
    have subNamed := find?_some inside
    have subSame := (sameIgnoringCase_iff terminated.2.2 (table.terminated entry known (entry.subcommand sub)
      (mem_cons_of_mem _ (mem_map_of_mem member)))).1 subNamed
    constructor
    · exact mem_commands.2 ⟨entry, known, .inr ⟨sub, member, rfl⟩⟩
    · simp [RedisCommand.fullname, TableEntry.subcommand, same, subSame]
  next => cases found

theorem not_is_of_head {char : UInt8} (head : op.head? = some char) (nonzero : char ≠ 0) (text : String)
    (differs : ((Aof.cString (ascii text)).map tolower).head? ≠ some (tolower char)) :
    ¬ isWord op text = true := by
  intro same
  obtain ⟨rest, rfl⟩ := head?_eq_some_iff.1 head
  simp only [isWord, Aof.sameIgnoringCase, decide_eq_true_eq] at same
  rw [← same, Aof.cString, takeWhile_cons_of_pos (by simpa using nonzero)] at differs
  exact differs rfl

theorem is_exclusive {text : String} (same : isWord op text = true) (text' : String)
    (differs : (Aof.cString (ascii text)).map tolower ≠ (Aof.cString (ascii text')).map tolower) :
    ¬ isWord op text' = true := by
  simp only [isWord, Aof.sameIgnoringCase, decide_eq_true_eq] at same ⊢
  rwa [same]

theorem ruleOf_unsigned (allows : ¬ (isWord op "allcommands" = true ∨ isWord op "+@all" = true))
    (denies : ¬ (isWord op "nocommands" = true ∨ isWord op "-@all" = true))
    (plus : op.head? ≠ some 43) (minus : op.head? ≠ some 45) : ruleOf table op = none := by
  simp only [ruleOf, if_neg allows, if_neg denies, plus, minus, false_and, or_self, if_false]

theorem ruleOf_word {text : String} (is : isWord op text = true)
    (other : text ∈ ["allkeys", "~*", "resetkeys", "allchannels", "&*", "resetchannels"]) : ruleOf table op = none := by
  have apart : ∀ text ∈ ["allkeys", "~*", "resetkeys", "allchannels", "&*", "resetchannels"],
      let lower := (Aof.cString (ascii text)).map tolower
      (∀ word ∈ ["allcommands", "+@all", "nocommands", "-@all"], lower ≠ (Aof.cString (ascii word)).map tolower) ∧
        lower.head? ≠ some (tolower 43) ∧ lower.head? ≠ some (tolower 45) := by decide
  obtain ⟨words, plus, minus⟩ := apart text other
  have exclusive := fun word member => is_exclusive is word (words word member)
  apply ruleOf_unsigned
  · exact not_or.2 ⟨exclusive _ (by simp), exclusive _ (by simp)⟩
  · exact not_or.2 ⟨exclusive _ (by simp), exclusive _ (by simp)⟩
  · exact fun head => not_is_of_head head (by decide) text plus is
  · exact fun head => not_is_of_head head (by decide) text minus is

/-- The first arguments after one more is allowed. -/
def withArg (firstargs : Nat → List Sds) (id : Nat) (arg : Sds) : Nat → List Sds :=
  if (firstargs id).any fun item => Aof.sameIgnoringCase item arg then firstargs
  else Function.update firstargs id (firstargs id ++ [arg])

theorem aclAddAllowedFirstArg_eq (id : Nat) (arg : Sds) : aclAddAllowedFirstArg s id arg =
      if id < userCommandBitsCount then
        .ok { s with allowedFirstargs := some (withArg (s.allowedFirstargs.getD fun _ => []) id arg) }
      else .error .outOfBounds := by
  simp only [aclAddAllowedFirstArg, withArg]
  split_ifs <;> rfl

/-- A modifier that is read as a command rule changes the permissions and the retained rules. Another one changes no
permission for commands. -/
def Sets (table : CommandTable) (s : AclSelector) (op : Sds) (result : Checked (Accepted AclSelector)) :
    Option CommandRule → Prop
  | some rule => result = do
      let s' ← rule.apply table s
      return .ok { s' with commandRules := rule.retain op s.commandRules }
  | none => Outcome result (fun _ => False) fun result => ∀ s', result = .ok s' → SameCommands s s'

section Signed
variable (s : AclSelector) {allow : Bool} (sign : decide (op.head? = some 43) = allow)

theorem sets_error (errno : Errno) : Sets table s op (.ok (.error errno)) none := by
  intro s' accepted
  cases accepted

/-- The rule is retained under a text that is the same without case. -/
theorem changed_update (touched resets : List Nat) {text rule : Sds} (same : text.map tolower = rule.map tolower) :
    (do let s' ← changed touched resets allow s; return (.ok (aclUpdateCommandRules s' text allow) : Accepted AclSelector)) =
      (do let s' ← changed touched resets allow s
          return .ok { s' with commandRules := retainRule s.commandRules rule allow }) := by
  unfold changed
  split_ifs
  · rfl
  · simp only [ok_bind, aclUpdateCommandRules, retainRule, same]
    rfl

include sign
theorem sets_changeCommand : Sets table s op (changeCommand table s (Aof.cString (op.drop 1)) allow)
    ((aclLookupCommand table (Aof.cString (op.drop 1))).map (.command allow)) := by
  subst sign
  unfold changeCommand
  cases found : aclLookupCommand table (Aof.cString (op.drop 1)) with
  | none => exact sets_error s _
  | some cmd =>
    simp only [aclChangeSelectorPerm_eq]
    exact changed_update s _ _ (lookup_fullname (zero_notMem_cString _) found).2

theorem sets_category : Sets table s op (aclSetSelectorCategory table s (Aof.cString (op.drop 1)) allow)
    ((aclGetCommandCategoryFlagByName ((Aof.cString (op.drop 1)).drop 1)).map (.category allow)) := by
  subst sign
  unfold aclSetSelectorCategory
  cases known : aclGetCommandCategoryFlagByName ((Aof.cString (op.drop 1)).drop 1) with
  | none => exact sets_error s _
  | some cflag =>
    simp only [setCategory_eq, cString_of_notMem (zero_notMem_cString _)]
    show (changed _ _ _ { s with commandRules := retainRule s.commandRules (Aof.cString (op.drop 1)) _ } >>= _) = _
    simp only [CommandRule.apply, changed]
    split_ifs <;> rfl

omit sign

theorem sets_allowSubcommand (sign : op.head? = some 43) :
    Sets table s op (allowSubcommand table s (Aof.cString (op.drop 1))) (readBarred table (Aof.cString (op.drop 1))) := by
  simp only [allowSubcommand, readBarred]
  generalize ((Aof.cString (op.drop 1)).reverse.takeWhile _).reverse = sub
  cases aclLookupCommand table (take _ _) with
  | none => exact sets_error s _
  | some cmd =>
    by_cases child : cmd.parent.isSome = true
    · simpa only [child, true_or, if_true] using sets_error s _
    by_cases empty : sub = []
    · simpa only [child, empty, or_true, if_true, Bool.false_eq_true, if_false] using sets_error s _
    simp only [child, empty, Bool.false_eq_true, or_self, if_false]
    split_ifs with container
    · cases aclLookupCommand table (Aof.cString (op.drop 1)) with
      | none => exact sets_error s _
      | some named =>
        simp only [aclChangeSelectorPerm_eq, Option.map_some, Sets, CommandRule.retain, sign]
        exact changed_update s _ _ rfl
    · simp only [Sets, CommandRule.apply, CommandRule.retain, aclAddAllowedFirstArg_eq, sign]
      split_ifs <;> rfl
end Signed

theorem addKeyPattern_same {s s' : AclSelector} (added : addKeyPattern s op = .ok s') : SameCommands s s' := by
  unfold addKeyPattern at added
  generalize (if op.head? = some 37 then readPermissions false false (op.drop 1) else some (true, true, op.drop 1)) =
    parsed at added
  split at added
  · cases added
  split at added
  · cases added
  next read write pattern =>
    split_ifs at added with bad present
    · cases added
      refine ⟨fun patterned pat member => ?_, rfl, rfl, rfl, rfl⟩
      obtain ⟨old, listed, rfl⟩ := mem_map.1 member
      split_ifs
      · exact (patterned old listed).imp (by simp +contextual) (by simp +contextual)
      · exact patterned old listed
    · cases added
      refine ⟨fun patterned pat member => ?_, rfl, rfl, rfl, rfl⟩
      rcases mem_append.1 member with old | new
      · exact patterned pat old
      · obtain rfl := mem_singleton.1 new
        by_contra neither
        rw [not_or] at bad neither
        exact bad.1 ⟨by simpa using neither.1, by simpa using neither.2⟩

theorem addChannel_same {s s' : AclSelector} (added : addChannel s op = .ok s') : SameCommands s s' := by
  unfold addChannel at added
  split_ifs at added <;> cases added <;> exact ⟨id, rfl, rfl, rfl, rfl⟩

theorem aclSetSelector_sets : Sets table s op (aclSetSelector table s op) (ruleOf table op) := by
  have frame : ∀ {s' : AclSelector}, SameCommands s s' → Sets table s op (.ok (.ok s')) none := by
    intro s' same other accepted
    cases accepted
    exact same
  rw [aclSetSelector]
  have branch {c : Prop} [Decidable c] {yes no : Checked (Accepted AclSelector)} {read : Option CommandRule}
      (yesSets : c → Sets table s op yes read) (noSets : ¬ c → Sets table s op no read) :
      Sets table s op (if c then yes else no) read := by
    split_ifs with holds
    · exact yesSets holds
    · exact noSets holds
  refine branch (fun keys => ?_) fun _ => branch (fun resetkeys => ?_) fun _ =>
    branch (fun channels => ?_) fun _ => branch (fun resetchannels => ?_) fun _ =>
    branch (fun allows => ?_) fun allows => branch (fun denies => ?_) fun denies =>
    branch (fun pattern => ?_) fun _ => branch (fun channel => ?_) fun _ =>
    branch (fun plus => branch (fun bar => ?_) fun bar => ?_) fun plus =>
    branch (fun minus => ?_) fun minus => branch (fun signed => ?_) fun signed => ?_
  · rw [keys.elim (fun is => ruleOf_word is (by simp)) fun is => ruleOf_word is (by simp)]
    exact frame ⟨fun _ _ member => absurd member not_mem_nil, rfl, rfl, rfl, rfl⟩
  · rw [ruleOf_word resetkeys (by simp)]
    exact frame ⟨fun _ _ member => absurd member not_mem_nil, rfl, rfl, rfl, rfl⟩
  · rw [channels.elim (fun is => ruleOf_word is (by simp)) fun is => ruleOf_word is (by simp)]
    exact frame ⟨id, rfl, rfl, rfl, rfl⟩
  · rw [ruleOf_word resetchannels (by simp)]
    exact frame ⟨id, rfl, rfl, rfl, rfl⟩
  · rw [ruleOf, if_pos allows]
    rfl
  · rw [ruleOf, if_neg allows, if_pos denies]
    rfl
  · rw [ruleOf_unsigned allows denies (by rintro head; simp [head] at pattern) (by rintro head; simp [head] at pattern)]
    exact fun _ => addKeyPattern_same
  · rw [ruleOf_unsigned allows denies (by simp [channel]) (by simp [channel])]
    exact fun _ => addChannel_same
  · rw [ruleOf, if_neg allows, if_neg denies, if_pos plus, if_pos bar]
    exact sets_allowSubcommand s plus.1
  · rw [ruleOf, if_neg allows, if_neg denies, if_pos plus, if_neg bar]
    exact sets_changeCommand s (decide_eq_true plus.1)
  · rw [ruleOf, if_neg allows, if_neg denies, if_neg plus, if_pos minus]
    exact sets_changeCommand s (by simp [minus.1])
  · rw [ruleOf, if_neg allows, if_neg denies, if_neg plus, if_neg minus, if_pos signed]
    exact sets_category s rfl
  · rw [ruleOf_unsigned allows denies (fun head => signed (.inl head)) fun head => signed (.inr head)]
    exact sets_error s _

/-- A rule that is read changes the permissions and the retained rules. -/
theorem aclSetSelector_rule {rule : CommandRule} (read : ruleOf table op = some rule) : aclSetSelector table s op =
      (do let s' ← rule.apply table s; return .ok { s' with commandRules := rule.retain op s.commandRules }) := by
  have sets := @aclSetSelector_sets table op s
  rwa [read] at sets

/-- A modifier that is not read as a command rule changes no permission for commands. -/
theorem aclSetSelector_other (read : ruleOf table op = none) :
    Outcome (aclSetSelector table s op) (fun _ => False) fun result => ∀ s', result = .ok s' → SameCommands s s' := by
  have sets := @aclSetSelector_sets table op s
  rwa [read] at sets
end Reading
end Redis.Acl

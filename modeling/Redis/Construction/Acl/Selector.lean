/- This file embeds the command table, the selectors and the command rules of `acl.c`. -/
import Redis.Construction.Aof.Manifest

namespace Redis.Acl
open Redis.Aof (ascii)

abbrev Sds := List UInt8

variable (table : CommandTable) (selector : AclSelector) (op : Sds) (id : Nat) (cmd : RedisCommand)

section Commands
def userCommandBitsCount : Nat := 1024

inductive Category where
  | keyspace
  | read
  | write
  | set
  | sortedset
  | list
  | hash
  | string
  | bitmap
  | hyperloglog
  | geo
  | stream
  | pubsub
  | admin
  | fast
  | slow
  | blocking
  | dangerous
  | connection
  | transaction
  | scripting
  deriving DecidableEq, Repr

def aclCommandCategories : List (String × Category) :=
  [("keyspace", .keyspace), ("read", .read), ("write", .write), ("set", .set), ("sortedset", .sortedset),
    ("list", .list), ("hash", .hash), ("string", .string), ("bitmap", .bitmap), ("hyperloglog", .hyperloglog),
    ("geo", .geo), ("stream", .stream), ("pubsub", .pubsub), ("admin", .admin), ("fast", .fast), ("slow", .slow),
    ("blocking", .blocking), ("dangerous", .dangerous), ("connection", .connection), ("transaction", .transaction),
    ("scripting", .scripting)]

def aclGetCommandCategoryFlagByName (name : Sds) : Option Category :=
  (aclCommandCategories.find? fun item => Aof.sameIgnoringCase name (ascii item.1)).map (·.2)

/-- The fields of `struct redisCommand` that the ACL reads. The name of a subcommand is without its container. -/
structure CommandRow where
  name : Sds
  id : Nat
  aclCategories : List Category
  noAuth : Bool
  deriving DecidableEq, Repr

/-- An entry of `server.orig_commands` with its `subcommands_dict`. There is one level of subcommands. -/
structure TableEntry extends CommandRow where
  subcommandsDict : Option (List CommandRow)
  deriving DecidableEq, Repr

/-- A command as a lookup finds it. The field `parent` holds the container of a subcommand. -/
structure RedisCommand extends CommandRow where
  parent : Option CommandRow
  subcommandsDict : Option (List CommandRow)
  deriving DecidableEq, Repr

def RedisCommand.fullname : Sds :=
  match cmd.parent with
  | none => cmd.name
  | some container => container.name ++ [124] ++ cmd.name

variable (entry : TableEntry)

def TableEntry.command : RedisCommand :=
  { entry.toCommandRow with parent := none, subcommandsDict := entry.subcommandsDict }

def TableEntry.subcommand (sub : CommandRow) : RedisCommand :=
  { sub with parent := some entry.toCommandRow, subcommandsDict := none }

def TableEntry.allCommands : List RedisCommand :=
  entry.command :: (entry.subcommandsDict.getD []).map entry.subcommand

/-- The radix tree `commandId` and the counter `nextid`. -/
structure CommandIds where
  commandId : List (Sds × Nat)
  nextid : Nat
  deriving DecidableEq, Repr

/-- The last bit of the bitmap is never handed out. -/
def aclGetCommandID (ids : CommandIds) (cmdname : Sds) : CommandIds × Nat :=
  let lowername := cmdname.map tolower
  match ids.commandId.lookup lowername with
  | some id => (ids, id)
  | none =>
    let nextid := ids.nextid + 1
    let nextid := if nextid = userCommandBitsCount - 1 then nextid + 1 else nextid
    (⟨(lowername, ids.nextid) :: ids.commandId, nextid⟩, ids.nextid)

def commandIds (calls : List Sds) : CommandIds := calls.foldl (fun ids name => (aclGetCommandID ids name).1) ⟨[], 0⟩

/-- A command table. Its dictionaries have one entry for a name, no name has a bar or a zero byte, and every identifier
was handed out for the full name of the command. -/
structure CommandTable where
  entries : List TableEntry
  calls : List Sds
  names : (entries.map fun entry => entry.name.map tolower).Nodup
  subnames : ∀ entry ∈ entries, ((entry.subcommandsDict.getD []).map fun sub => sub.name.map tolower).Nodup
  barless : ∀ entry ∈ entries, ∀ cmd ∈ entry.allCommands, 124 ∉ cmd.name
  terminated : ∀ entry ∈ entries, ∀ cmd ∈ entry.allCommands, 0 ∉ cmd.name
  handedOut : ∀ entry ∈ entries, ∀ cmd ∈ entry.allCommands,
    (commandIds calls).commandId.lookup (cmd.fullname.map tolower) = some cmd.id

/-- The split of `sdssplitlen` at one character. -/
def sdssplitlen (s : Sds) (sep : UInt8) : List Sds := if s = [] then [] else s.splitOn sep

/-- The dictionaries compare names without case. -/
def lookupCommandBySdsLogic (commands : List TableEntry) (s : Sds) : Option RedisCommand :=
  match sdssplitlen s 124 with
  | [name] => (commands.find? fun entry => Aof.sameIgnoringCase name entry.name).map (·.command)
  | [name, subname] => do
      let entry ← commands.find? fun entry => Aof.sameIgnoringCase name entry.name
      let subcommands ← entry.subcommandsDict
      let sub ← subcommands.find? fun sub => Aof.sameIgnoringCase subname sub.name
      return entry.subcommand sub
  | _ => none

def aclLookupCommand (name : Sds) : Option RedisCommand := lookupCommandBySdsLogic table.entries (Aof.cString name)
end Commands

section Selectors
structure KeyPattern where
  pattern : Sds
  read : Bool
  write : Bool
  deriving DecidableEq, Repr

/-- The record `aclSelector`. A cell of `allowed_firstargs` that is `NULL` is an empty list. -/
structure AclSelector where
  allkeys : Bool
  allchannels : Bool
  allcommands : Bool
  allowedCommands : BitVec 1024
  allowedFirstargs : Option (Nat → List Sds)
  patterns : List KeyPattern
  channels : List Sds
  commandRules : Sds

/-- The parameter is the flag of `server.acl_pubsub_default`. -/
def aclCreateSelector (aclPubsubDefault : Bool) : AclSelector :=
  { allkeys := false, allchannels := aclPubsubDefault, allcommands := false, allowedCommands := 0,
    allowedFirstargs := none, patterns := [], channels := [], commandRules := [] }

def aclGetSelectorCommandBit : Bool :=
  if id ≥ userCommandBitsCount then false else selector.allowedCommands.getLsbD id

def aclSelectorCanExecuteFutureCommands : Bool := aclGetSelectorCommandBit selector (userCommandBitsCount - 1)

def aclSetSelectorCommandBit (value : Bool) : AclSelector :=
  if id ≥ userCommandBitsCount then selector
  else if value then { selector with allowedCommands := selector.allowedCommands ||| (1#1024 <<< id) }
  else { selector with allowedCommands := selector.allowedCommands &&& ~~~(1#1024 <<< id), allcommands := false }

/-- The rule at the pointer `existing_rule` matches verbatim or is a subcommand of the new rule. -/
def matchesRule (existing newRule : Sds) : Bool :=
  let common := min existing.length newRule.length
  existing.take common = newRule.take common ∧
    (existing.length = newRule.length ∨ existing.length > newRule.length ∧ existing.getD newRule.length 0 = 124)

/-- The loop over the retained rules. The text is `kept ++ rest` and `existing_rule` points to `rest`. -/
def removeRuleLoop (newRule : Sds) : Nat → Sds → Sds → Sds
  | 0, kept, rest => kept ++ rest
  | _ + 1, kept, [] => kept
  | fuel + 1, kept, sign :: rest =>
    let existing := rest.takeWhile (· ≠ 32)
    let ruleEnd := rest.dropWhile (· ≠ 32)
    if matchesRule existing newRule then
      removeRuleLoop newRule fuel (if ruleEnd = [] ∧ kept ≠ [] then kept.dropLast else kept) (ruleEnd.drop 1)
    else removeRuleLoop newRule fuel (kept ++ [sign] ++ existing ++ ruleEnd.take 1) (ruleEnd.drop 1)

def aclSelectorRemoveCommandRule (rules newRule : Sds) : Sds := removeRuleLoop newRule rules.length [] rules

variable (rule : Sds) (allow : Bool)

def aclUpdateCommandRules : AclSelector :=
  let newRule := rule.map tolower
  let rules := aclSelectorRemoveCommandRule selector.commandRules newRule
  { selector with
    commandRules := (if rules = [] then rules else rules ++ [32]) ++ [if allow then 43 else 45] ++ newRule }

/-- The table of first arguments has `USER_COMMAND_BITS_COUNT` cells. -/
def aclResetFirstArgsForCommand : Checked AclSelector :=
  match selector.allowedFirstargs with
  | none => .ok selector
  | some firstargs =>
    if id < userCommandBitsCount then
      .ok { selector with allowedFirstargs := some (Function.update firstargs id []) }
    else .error .outOfBounds

def aclAddAllowedFirstArg (sub : Sds) : Checked AclSelector :=
  let firstargs := selector.allowedFirstargs.getD fun _ => []
  if id < userCommandBitsCount then
    if (firstargs id).any fun item => Aof.sameIgnoringCase item sub then
      .ok { selector with allowedFirstargs := some firstargs }
    else .ok { selector with allowedFirstargs := some (Function.update firstargs id (firstargs id ++ [sub])) }
  else .error .outOfBounds

def aclChangeSelectorPerm : Checked AclSelector := do
  let selector ← aclResetFirstArgsForCommand (aclSetSelectorCommandBit selector cmd.id allow) cmd.id
  return (cmd.subcommandsDict.getD []).foldl (fun selector sub => aclSetSelectorCommandBit selector sub.id allow) selector

/-- One round of the loop over a dictionary of commands. -/
def changeIfInCategory (cflag : Category) (value : Bool) (selector : AclSelector) (cmd : RedisCommand) :
    Checked AclSelector :=
  if cflag ∈ cmd.aclCategories then aclChangeSelectorPerm selector cmd value else .ok selector

def aclSetSelectorCommandBitsForCategory (commands : List TableEntry) (selector : AclSelector) (cflag : Category)
    (value : Bool) : Checked AclSelector :=
  commands.foldlM (fun selector entry => entry.allCommands.foldlM (changeIfInCategory cflag value) selector) selector

/-- The values of `errno` that `ACLSetUser` sets. -/
inductive Errno where
  | EINVAL
  | ENOENT
  | EEXIST
  | EISDIR
  | ENODEV
  | EBADMSG
  | ECHILD
  deriving DecidableEq, Repr

/-- The result of a modifier that the process survives. -/
abbrev Accepted (A : Type) := Except Errno A

def aclSetSelectorCategory (category : Sds) (allow : Bool) : Checked (Accepted AclSelector) :=
  match aclGetCommandCategoryFlagByName (category.drop 1) with
  | none => .ok (.error .ENOENT)
  | some cflag => do
      let selector ← aclSetSelectorCommandBitsForCategory table.entries
        (aclUpdateCommandRules selector (Aof.cString category) allow) cflag allow
      return .ok selector

def aclStringHasSpaces (s : Sds) : Bool := s.any fun char => isspace char ∨ char = 0

/-- The loop over the permissions behind a percent sign. It returns the permissions and the pattern. -/
def readPermissions (read write : Bool) : Sds → Option (Bool × Bool × Sds)
  | [] => some (read, write, [])
  | char :: rest =>
    if (char = 82 ∨ char = 114) ∧ !read then readPermissions true write rest
    else if (char = 87 ∨ char = 119) ∧ !write then readPermissions read true rest
    else if char = 126 then some (read, write, rest)
    else none

/-- The branch of the modifiers that start with `~` or `%`. -/
def addKeyPattern : Accepted AclSelector :=
  if selector.allkeys then .error .EEXIST
  else
    match if op.head? = some 37 then readPermissions false false (op.drop 1) else some (true, true, op.drop 1) with
    | none => .error .EINVAL
    | some (read, write, pattern) =>
      if (!read ∧ !write) ∨ aclStringHasSpaces pattern then .error .EINVAL
      else if selector.patterns.any (·.pattern = pattern) then
        .ok { selector with patterns := selector.patterns.map fun item =>
          if item.pattern = pattern then { item with read := item.read || read, write := item.write || write }
          else item }
      else .ok { selector with patterns := selector.patterns ++ [⟨pattern, read, write⟩] }

def addChannel : Accepted AclSelector :=
  if selector.allchannels then .error .EISDIR
  else if aclStringHasSpaces (op.drop 1) then .error .EINVAL
  else if op.drop 1 ∈ selector.channels then .ok selector
  else .ok { selector with channels := selector.channels ++ [op.drop 1] }

/-- The branch of `+<command>|<sub>`. The text is split at its last bar. -/
def allowSubcommand : Checked (Accepted AclSelector) :=
  let sub := (rule.reverse.takeWhile (· ≠ 124)).reverse
  let copy := rule.take (rule.length - sub.length - 1)
  match aclLookupCommand table copy with
  | none => .ok (.error .ENOENT)
  | some cmd =>
    if cmd.parent.isSome then .ok (.error .ECHILD)
    else if sub = [] then .ok (.error .EINVAL)
    else if cmd.subcommandsDict.isSome then
      match aclLookupCommand table rule with
      | none => .ok (.error .ENOENT)
      | some cmd => do
          let selector ← aclChangeSelectorPerm selector cmd true
          return .ok (aclUpdateCommandRules selector rule true)
    else do
      let selector ← aclAddAllowedFirstArg selector cmd.id sub
      return .ok (aclUpdateCommandRules selector rule true)

/-- The branches of `+<command>` and `-<command>`. -/
def changeCommand : Checked (Accepted AclSelector) :=
  match aclLookupCommand table rule with
  | none => .ok (.error .ENOENT)
  | some cmd => do
      let selector ← aclChangeSelectorPerm selector cmd allow
      return .ok (aclUpdateCommandRules selector cmd.fullname allow)

/-- The rules `+@all` and `-@all`. -/
def changeAllCommands : AclSelector :=
  { selector with allowedCommands := if allow then BitVec.allOnes 1024 else 0, allcommands := allow, commandRules := [],
                  allowedFirstargs := none }

/-- The test `!strcasecmp(op, text)`. -/
def isWord (text : String) : Bool := Aof.sameIgnoringCase op (ascii text)

/-- The modifier has the bytes of `op` up to `oplen`. A call with length -1 reads up to the terminator and is made here
with the terminator as the last byte. -/
def aclSetSelector : Checked (Accepted AclSelector) :=
  let rule := Aof.cString (op.drop 1)
  if isWord op "allkeys" ∨ isWord op "~*" then .ok (.ok { selector with allkeys := true, patterns := [] })
  else if isWord op "resetkeys" then .ok (.ok { selector with allkeys := false, patterns := [] })
  else if isWord op "allchannels" ∨ isWord op "&*" then .ok (.ok { selector with allchannels := true, channels := [] })
  else if isWord op "resetchannels" then .ok (.ok { selector with allchannels := false, channels := [] })
  else if isWord op "allcommands" ∨ isWord op "+@all" then .ok (.ok (changeAllCommands selector true))
  else if isWord op "nocommands" ∨ isWord op "-@all" then .ok (.ok (changeAllCommands selector false))
  else if op.head? = some 126 ∨ op.head? = some 37 then .ok (addKeyPattern selector op)
  else if op.head? = some 38 then .ok (addChannel selector op)
  else if op.head? = some 43 ∧ rule.head? ≠ some 64 then
    if 124 ∈ rule then allowSubcommand table selector rule else changeCommand table selector rule true
  else if op.head? = some 45 ∧ rule.head? ≠ some 64 then changeCommand table selector rule false
  else if op.head? = some 43 ∨ op.head? = some 45 then
    aclSetSelectorCategory table selector rule (op.head? = some 43)
  else .ok (.error .EINVAL)

def matchFirstArg (cmd : RedisCommand) (argv : List Sds) : List Sds → Checked Bool
  | [] => .ok false
  | item :: rest => do
      let arg ← readCell argv (if cmd.parent.isSome then 2 else 1)
      if Aof.sameIgnoringCase arg item then return true else matchFirstArg cmd argv rest

/-- The command test of `ACLSelectorCheckCmd`. -/
def aclSelectorCheckCmd (argv : List Sds) : Checked Bool :=
  if selector.allcommands ∨ cmd.noAuth then .ok true
  else if aclGetSelectorCommandBit selector cmd.id then .ok true
  else if argv.length < 2 then .ok false
  else
    match selector.allowedFirstargs with
    | none => .ok false
    | some firstargs =>
      if cmd.id < userCommandBitsCount then matchFirstArg cmd argv (firstargs cmd.id) else .error .outOfBounds
end Selectors
end Redis.Acl

/- This file embeds the users of `acl.c`: the modifiers, the description of a user, `ACL SETUSER`, `ACL DELUSER` and
`ACL LOAD`, and what they do to the connected clients. -/
import Redis.Construction.Acl.Selector

namespace Redis.Acl
open Redis.Aof (ascii)
variable (config : AclConfig) (selector : AclSelector) (state : AclState) (u : User) (op : Sds)

/-- What the functions read of the server. The function `hashPassword` is `ACLHashPassword`. -/
structure AclConfig where
  table : CommandTable
  aclPubsubDefault : Bool
  hashPassword : Sds → Sds
  stringmatchlen : Sds → Sds → Bool

/-- The record `user`. Its list of selectors starts with the root selector, which is a field of its own here. -/
structure User where
  name : Sds
  enabled : Bool
  disabled : Bool
  nopass : Bool
  sanitizePayload : Bool
  sanitizePayloadSkip : Bool
  passwords : List Sds
  aclString : Option Sds
  root : AclSelector
  selectors : List AclSelector

def User.allSelectors : List AclSelector := u.root :: u.selectors

def newUser (name : Sds) : User :=
  { name, enabled := false, disabled := true, nopass := false, sanitizePayload := true, sanitizePayloadSkip := false,
    passwords := [], aclString := none, root := aclCreateSelector config.aclPubsubDefault, selectors := [] }

def aclCheckPasswordHash (hash : Sds) : Bool :=
  hash.length = 64 ∧ hash.all fun char => (97 ≤ char ∧ char ≤ 102) ∨ (48 ≤ char ∧ char ≤ 57)

def applyOpSet (table : CommandTable) (selector : AclSelector) : List Sds → Checked (Accepted AclSelector)
  | [] => .ok (.ok selector)
  | op :: rest => do
      match ← aclSetSelector table selector op with
      | .ok selector => applyOpSet table selector rest
      | .error errno => return .error errno

/-- A body that cannot be split counts as an empty one. -/
def aclCreateSelectorFromOpSet (opset : Sds) : Checked (Accepted AclSelector) :=
  let trimmed := (opset.drop 1).dropLast
  applyOpSet config.table (aclCreateSelector config.aclPubsubDefault) ((SplitArgs.sdssplitargs trimmed).getD [])

/-- The password that a modifier names, by itself or by its hash. -/
def passwordOf (plain : UInt8) (op : Sds) : Accepted Sds :=
  if op.head? = some plain then .ok (config.hashPassword (op.drop 1))
  else if aclCheckPasswordHash (op.drop 1) then .ok (op.drop 1)
  else .error .EBADMSG

def addPassword : Accepted User := do
  let newpass ← passwordOf config 62 op
  return { u with passwords := if newpass ∈ u.passwords then u.passwords else u.passwords ++ [newpass], nopass := false }

def removePassword : Accepted User := do
  let delpass ← passwordOf config 60 op
  if delpass ∈ u.passwords then return { u with passwords := u.passwords.erase delpass } else .error .ENODEV

/-- The words that change the flags of the user. -/
def setUserFlag : Option User :=
  if isWord op "on" then some { u with enabled := true, disabled := false }
  else if isWord op "off" then some { u with disabled := true, enabled := false }
  else if isWord op "skip-sanitize-payload" then some { u with sanitizePayloadSkip := true, sanitizePayload := false }
  else if isWord op "sanitize-payload" then some { u with sanitizePayloadSkip := false, sanitizePayload := true }
  else if isWord op "nopass" then some { u with nopass := true, passwords := [] }
  else if isWord op "resetpass" then some { u with nopass := false, passwords := [] }
  else none

/-- The branches of `ACLSetUser` without `reset`. -/
def setUserWord : Checked (Accepted User) :=
  match setUserFlag u op with
  | some u => .ok (.ok u)
  | none =>
    if op.head? = some 62 ∨ op.head? = some 35 then .ok (addPassword config u op)
    else if op.head? = some 60 ∨ op.head? = some 33 then .ok (removePassword config u op)
    else if op.head? = some 40 ∧ op.getLast? = some 41 then do
      return (← aclCreateSelectorFromOpSet config op).map fun selector => { u with selectors := u.selectors ++ [selector] }
    else if isWord op "clearselectors" then .ok (.ok { u with selectors := [] })
    else do return (← aclSetSelector config.table u.root op).map fun root => { u with root }

def resetWords : List String :=
  ["resetpass", "resetkeys", "resetchannels"] ++ (if config.aclPubsubDefault then ["allchannels"] else []) ++
    ["off", "sanitize-payload", "clearselectors", "-@all"]

/-- One call of `reset`, which must succeed. -/
def resetStep (word : String) : Checked User := do
  match ← setUserWord config u (ascii word) with
  | .ok u => return u
  | .error _ => .error (.assertion .aclSetUser)

def aclSetUser : Checked (Accepted User) :=
  let u := { u with aclString := none }
  if op = [] then .ok (.ok u)
  else if isWord op "reset" then do return .ok (← (resetWords config).foldlM (resetStep config) u)
  else setUserWord config u op

def aclCreateDefaultUser : User :=
  let u := newUser config (ascii "default")
  { u with root := { changeAllCommands u.root true with allkeys := true, allchannels := true }, enabled := true,
           disabled := false, nopass := true }

/-- The loop that applies the retained rules to the fake selector. Each of them must be accepted. -/
def replayRules (table : CommandTable) (selector : AclSelector) (argv : List Sds) : Checked AclSelector :=
  argv.foldlM (fun selector rule => do
    match ← aclSetSelector table selector (rule ++ [0]) with
    | .ok selector => return selector
    | .error _ => .error (.assertion .aclDescribeSelectorCommandRules)) selector

def aclDescribeSelectorCommandRules : Checked Sds := do
  let future := aclSelectorCanExecuteFutureCommands selector
  let fakeSelector := changeAllCommands (aclCreateSelector config.aclPubsubDefault) future
  match SplitArgs.sdssplitargs selector.commandRules with
  | none => .error (.assertion .aclDescribeSelectorCommandRules)
  | some argv =>
    let fakeSelector ← replayRules config.table fakeSelector argv
    require .aclDescribeSelectorCommandRules (fakeSelector.allowedCommands = selector.allowedCommands)
    let base := ascii (if future then "+@all" else "-@all")
    return if selector.commandRules = [] then base else base ++ [32] ++ selector.commandRules

def sdsCatPatternString (pat : KeyPattern) : Checked Sds :=
  if pat.read ∧ pat.write then .ok (ascii "~" ++ pat.pattern)
  else if pat.read then .ok (ascii "%R~" ++ pat.pattern)
  else if pat.write then .ok (ascii "%W~" ++ pat.pattern)
  else .error (.assertion .sdsCatPatternString)

def aclDescribeSelector : Checked Sds := do
  let patterns ← if selector.allkeys then .ok [ascii "~*"] else selector.patterns.mapM sdsCatPatternString
  let channels := if selector.allchannels then [ascii "&*"]
    else ascii "resetchannels" :: selector.channels.map fun pattern => ascii "&" ++ pattern
  let rules ← aclDescribeSelectorCommandRules config selector
  return (patterns ++ channels).flatMap (· ++ [32]) ++ rules

/-- The flags in the order of the table `ACLUserFlags`. -/
def User.flagNames : List String :=
  [("on", u.enabled), ("off", u.disabled), ("nopass", u.nopass), ("skip-sanitize-payload", u.sanitizePayloadSkip),
    ("sanitize-payload", u.sanitizePayload)].filterMap fun flag => if flag.2 then some flag.1 else none

/-- The description is kept in the user until the next modifier. -/
def aclDescribeUser : Checked (User × Sds) :=
  match u.aclString with
  | some text => .ok (u, text)
  | none => do
      let root ← aclDescribeSelector config u.root
      let selectors ← u.selectors.mapM (aclDescribeSelector config)
      let text := (u.flagNames.map ascii ++ u.passwords.map (ascii "#" ++ ·)).flatMap (· ++ [32]) ++ root ++
        selectors.flatMap fun text => ascii " (" ++ text ++ ascii ")"
      return ({ u with aclString := some text }, text)

/-- The last byte of an argument. Before the first byte of an empty one stands the type of its header. -/
def lastByte : UInt8 := op.getLast?.getD 1

/-- The loop of `ACLMergeSelectorArguments`. The second argument is the selector that is open and the last one is the
number of arguments that were merged before a parenthesis stayed open. -/
def mergeLoop (merged : List Sds) : Option Sds → List Sds → Option (List Sds) × Nat
  | none, [] => (some merged, merged.length)
  | some _, [] => (none, merged.length)
  | none, op :: rest =>
    if op.head? = some 40 ∧ lastByte op ≠ 41 then mergeLoop merged (some op) rest
    else mergeLoop (merged ++ [op]) none rest
  | some selector, op :: rest =>
    let selector := selector ++ [32] ++ Aof.cString op
    if lastByte op = 41 then mergeLoop (merged ++ [selector]) none rest else mergeLoop merged (some selector) rest

/-- The merged arguments, or `NULL`, and the value of `merged_argc`. -/
def aclMergeSelectorArguments (argv : List Sds) : Option (List Sds) × Nat := mergeLoop [] none argv

/-- The loop over the merged arguments of `ACL SETUSER`. -/
def applyModifiers (config : AclConfig) (u : User) : List Sds → Checked (Accepted User)
  | [] => .ok (.ok u)
  | op :: rest => do
      match ← aclSetUser config u op with
      | .ok u => applyModifiers config u rest
      | .error errno => return .error errno

section Clients
/-- What the functions read of a connected client. The user is given by its name and `none` is the pointer `NULL`. The
flag `CLIENT_PUBSUB` is set while a client has a subscription. -/
structure AclClient where
  id : Nat
  user : Option Sds
  authenticated : Bool
  master : Bool
  replica : Bool
  monitor : Bool
  closeAsap : Bool
  closeAfterCommand : Bool
  pubsubPatterns : List Sds
  pubsubChannels : List Sds
  pubsubshardChannels : List Sds
  deriving DecidableEq, Repr

variable (c : AclClient) (username : Sds)

def AclClient.subscribed : Bool := c.pubsubPatterns ≠ [] ∨ c.pubsubChannels ≠ [] ∨ c.pubsubshardChannels ≠ []

/-- The test `getClientType(c) == CLIENT_TYPE_PUBSUB`. -/
def AclClient.typePubsub : Bool := !c.master ∧ !(c.replica ∧ !c.monitor) ∧ c.subscribed

/-- The user `default` is the object `DefaultUser`, the others follow in `users`. -/
structure AclState where
  defaultUser : User
  users : List User
  clients : List AclClient
  currentClient : Nat

def defaultName : Sds := ascii "default"

def aclGetUserByName (name : Sds) : Option User :=
  if name = defaultName then some state.defaultUser else state.users.find? (·.name = name)

/-- The user of a name is overwritten or a new one is added. The order in the list does not matter. -/
def AclState.putUser : AclState :=
  if u.name = defaultName then { state with defaultUser := u }
  else { state with users := u :: state.users.filter (·.name ≠ u.name) }

def aclCheckChannelAgainstList (reference : List Sds) (channel : Sds) (isPattern : Bool) : Bool :=
  reference.any fun pattern =>
    if isPattern then Aof.cString pattern = Aof.cString channel else config.stringmatchlen pattern channel

def aclUserCheckChannelPerm (channel : Sds) (isPattern : Bool) : Bool :=
  u.allSelectors.any fun s => s.allchannels || aclCheckChannelAgainstList config s.channels channel isPattern

/-- The checks of one client against the upcoming channels. -/
def violates (upcoming : List Sds) (c : AclClient) : Bool :=
  c.pubsubPatterns.any (fun o => !aclCheckChannelAgainstList config upcoming o true) ||
    c.pubsubChannels.any (fun o => !aclCheckChannelAgainstList config upcoming o false) ||
    c.pubsubshardChannels.any fun o => !aclCheckChannelAgainstList config upcoming o false

/-- The clients that stay when the user of this name is changed. The list `upcoming` has no match method, so that the
search for a channel of the original user compares pointers and finds none of them. -/
def aclKillPubsubClientsIfNeeded (clients : List AclClient) (name : Sds) (new original : User) : List AclClient :=
  if clients.all (fun c => !c.subscribed) then clients
  else if new.allSelectors.any (·.allchannels) then clients
  else if original.allSelectors.all fun s => !s.allchannels ∧ s.channels = [] then clients
  else
    let upcoming := new.allSelectors.flatMap (·.channels)
    clients.filter fun c => !(c.user = some name ∧ c.typePubsub ∧ violates config upcoming c)

def aclFreeUserAndKillClients : AclState :=
  { state with clients := state.clients.map fun c =>
      if c.user = some u.name then
        { c with user := some defaultName, authenticated := false,
                 closeAfterCommand := c.closeAfterCommand || c.id = state.currentClient,
                 closeAsap := c.closeAsap || c.id ≠ state.currentClient }
      else c }

inductive SetUserError where
  | username
  | unmatchedParenthesis
  | modifier (errno : Errno)
  deriving DecidableEq, Repr

/-- The modifiers are applied to a copy of the user, and the copy goes back without its name. -/
def aclStringSetUser (argv : List Sds) : Checked (AclState × Option SetUserError) :=
  match (aclMergeSelectorArguments argv).1 with
  | none => .ok (state, some .unmatchedParenthesis)
  | some args => do
      let u := aclGetUserByName state username
      match ← applyModifiers config (u.getD (newUser config username)) args with
      | .error errno => return (state, some (.modifier errno))
      | .ok tempu =>
        let clients := match u with
          | some u => aclKillPubsubClientsIfNeeded config state.clients username tempu u
          | none => state.clients
        return ({ state with clients }.putUser { tempu with name := username }, none)

def aclSetUserCommand (argv : List Sds) : Checked (AclState × Option SetUserError) :=
  if aclStringHasSpaces username then .ok (state, some .username) else aclStringSetUser config state username argv

/-- One round of the loop of `ACL DELUSER`. -/
def delUser : AclState :=
  match state.users.find? (·.name = username) with
  | some u => aclFreeUserAndKillClients { state with users := state.users.filter (·.name ≠ username) } u
  | none => state

/-- The names are compared with `default` as strings that end at a zero byte. -/
def aclDelUserCommand (usernames : List Sds) : AclState :=
  if usernames.any fun username => Aof.cString username = defaultName then state else usernames.foldl delUser state
end Clients

/-- The errors that are collected with the number of their line. -/
inductive LoadError where
  | userKeyword (linenum : Nat)
  | username (linenum : Nat)
  | duplicateUser (name : Sds) (linenum : Nat)
  | unmatchedParenthesis (linenum : Nat)
  | operation (linenum : Nat) (op : Sds)
  | modifier (linenum : Nat) (errno : Errno)
  deriving DecidableEq, Repr

/-- The text that `fgets` and `sdscat` collect from the file. A buffer of 1024 bytes ends at a newline or when it is full,
and what follows a zero byte in it is lost. -/
def readAcls (count : Nat) (cut : Bool) : Sds → Sds
  | [] => []
  | char :: rest =>
    (if cut || char = 0 then [] else [char]) ++
      if char = 10 ∨ count + 1 = 1023 then readAcls 0 false rest else readAcls (count + 1) (cut || char = 0) rest

/-- The loop over the merged arguments of a line. The flag is `syntax_error`. -/
def loadModifiers (config : AclConfig) (linenum : Nat) (u : User) (errors : List LoadError) (syntaxError : Bool) :
    List Sds → Checked (User × List LoadError)
  | [] => .ok (u, errors)
  | arg :: rest => do
      let op := Aof.sdstrim arg [9, 13, 10]
      match ← aclSetUser config u op with
      | .ok u => loadModifiers config linenum u errors syntaxError rest
      | .error .ENOENT => loadModifiers config linenum u (errors ++ [.operation linenum op]) syntaxError rest
      | .error errno =>
        loadModifiers config linenum u (if syntaxError then errors else errors ++ [.modifier linenum errno]) true rest

/-- When the arguments could not be merged the loop over them reads the pointer `NULL`. -/
def loadUser (linenum : Nat) (errors : List LoadError) (u : User) (argv : List Sds) : Checked (User × List LoadError) :=
  match aclMergeSelectorArguments argv with
  | (some args, _) => loadModifiers config linenum u errors false args
  | (none, 0) => .ok (u, errors ++ [.unmatchedParenthesis linenum])
  | (none, _ + 1) => .error .nullPointer

def loadLine (users : List User) (errors : List LoadError) (linenum : Nat) (line : Sds) :
    Checked (List User × List LoadError) :=
  match sdssplitlen (Aof.sdstrim line [32, 9, 13, 10]) 32 with
  | [] => .ok (users, errors)
  | [_] => .ok (users, errors ++ [.userKeyword linenum])
  | keyword :: name :: argv =>
    if keyword ≠ ascii "user" then .ok (users, errors ++ [.userKeyword linenum])
    else if aclStringHasSpaces name then .ok (users, errors ++ [.username linenum])
    else if users.any (·.name = name) then .ok (users, errors ++ [.duplicateUser name linenum])
    else do
      let (u, errors) ← loadUser config linenum errors (newUser config name) argv
      return (users ++ [u], errors)

def loadLines (config : AclConfig) (users : List User) (errors : List LoadError) (linenum : Nat) :
    List Sds → Checked (List User × List LoadError)
  | [] => .ok (users, errors)
  | line :: rest => do
      let (users, errors) ← loadLine config users errors linenum line
      loadLines config users errors (linenum + 1) rest

def aclLoadFromFile (content : Sds) : Checked (AclState × List LoadError) := do
  let (users, errors) ← loadLines config [] [] 1 (sdssplitlen (readAcls 0 false content) 10)
  if errors = [] then
    let newDefault := (users.find? (·.name = defaultName)).getD (aclCreateDefaultUser config)
    let killed := state.users.foldl aclFreeUserAndKillClients state
    return ({ killed with defaultUser := newDefault, users := users.filter (·.name ≠ defaultName) }, [])
  else return (state, errors)

end Redis.Acl

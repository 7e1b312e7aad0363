import Redis.Proof.Acl.Clients

namespace Redis.Acl
open Foundation List
open Redis.Aof (ascii)

section Modifiers
variable {config : AclConfig} {u u' : User} {op : Sds}

theorem setUserFlag_frame (set : setUserFlag u op = some u') :
    u'.name = u.name ∧ u'.root = u.root ∧ u'.selectors = u.selectors := by
  unfold setUserFlag at set
  split_ifs at set <;> cases set <;> exact ⟨rfl, rfl, rfl⟩

theorem addPassword_frame (set : addPassword config u op = .ok u') :
    u'.name = u.name ∧ u'.root = u.root ∧ u'.selectors = u.selectors := by
  obtain ⟨password, -, added⟩ := exists_of_bind_eq_ok set
  cases added
  exact ⟨rfl, rfl, rfl⟩

theorem removePassword_frame (set : removePassword config u op = .ok u') :
    u'.name = u.name ∧ u'.root = u.root ∧ u'.selectors = u.selectors := by
  obtain ⟨password, -, removed⟩ := exists_of_bind_eq_ok set
  split_ifs at removed
  cases removed
  exact ⟨rfl, rfl, rfl⟩

theorem exists_accepted {A B : Type} {call : Checked (Accepted A)} {next : A → B} {result : B}
    (returned : (do return (← call).map next) = Except.ok (.ok result)) :
    ∃ value, call = .ok (.ok value) ∧ result = next value := by
  obtain ⟨outcome, called, accepted⟩ := exists_of_bind_eq_ok returned
  cases outcome with
  | ok value =>
    cases accepted
    exact ⟨value, called, rfl⟩
  | error errno => cases accepted

/-- What an accepted modifier changes: neither the root selector nor the list of selectors, or one of them. -/
theorem setUserWord_cases (set : setUserWord config u op = .ok (.ok u')) :
    u'.name = u.name ∧ (u'.root = u.root ∧ u'.selectors = u.selectors ∨
      (∃ selector, (op.head? = some 40 ∧ op.getLast? = some 41) ∧
        aclCreateSelectorFromOpSet config op = .ok (.ok selector) ∧ u'.root = u.root ∧
        u'.selectors = u.selectors ++ [selector]) ∨
      (u'.root = u.root ∧ u'.selectors = []) ∨
      ∃ root, aclSetSelector config.table u.root op = .ok (.ok root) ∧ u'.root = root ∧ u'.selectors = u.selectors) := by
  unfold setUserWord at set
  cases flag : setUserFlag u op with
  | some other =>
    rw [flag] at set
    cases set
    exact ⟨(setUserFlag_frame flag).1, .inl (setUserFlag_frame flag).2⟩
  | none =>
    simp only [flag] at set
    split_ifs at set with add remove parentheses clear
    · have frame := addPassword_frame (Except.ok.inj set)
      exact ⟨frame.1, .inl frame.2⟩
    · have frame := removePassword_frame (Except.ok.inj set)
      exact ⟨frame.1, .inl frame.2⟩
    · obtain ⟨selector, created, rfl⟩ := exists_accepted set
      exact ⟨rfl, .inr (.inl ⟨selector, parentheses, created, rfl, rfl⟩)⟩
    · cases set
      exact ⟨rfl, .inr (.inr (.inl ⟨rfl, rfl⟩))⟩
    · obtain ⟨root, changed, rfl⟩ := exists_accepted set
      exact ⟨rfl, .inr (.inr (.inr ⟨root, changed, rfl, rfl⟩))⟩

theorem reset_eq (config : AclConfig) (u : User) : (resetWords config).foldlM (resetStep config) u =
      .ok { u with nopass := false, passwords := [], disabled := true, enabled := false, sanitizePayloadSkip := false,
                   sanitizePayload := true, selectors := [],
                   root := { changeAllCommands u.root false with
                             allkeys := false, patterns := [], allchannels := config.aclPubsubDefault, channels := [] } } := by
  unfold resetWords
  cases config.aclPubsubDefault <;> rfl

theorem aclSetUser_name (set : aclSetUser config u op = .ok (.ok u')) : u'.name = u.name := by
  unfold aclSetUser at set
  dsimp only at set
  split_ifs at set
  · cases set
    rfl
  · rw [reset_eq] at set
    cases set
    rfl
  · exact (setUserWord_cases set).1
end Modifiers

section Total
variable {config : AclConfig}

theorem apply_ok {table : CommandTable} {rule : CommandRule} (s : AclSelector)
    (fits : ∀ named ∈ rule.commands table, named.id < userCommandBitsCount) : ∃ s', rule.apply table s = .ok s' := by
  cases rule with
  | all allow => exact ⟨_, rfl⟩
  | category allow cflag => exact ⟨_, if_neg fun fault => not_fault fits fault.2⟩
  | command allow cmd => exact ⟨_, if_neg fun fault => not_fault fits fault.2⟩
  | firstArg cmd arg =>
    rw [CommandRule.apply, aclAddAllowedFirstArg_eq, if_pos (fits cmd (mem_singleton_self cmd))]
    exact ⟨_, rfl⟩

variable (fits : ∀ cmd ∈ config.table.commands, cmd.id < userCommandBitsCount)

include fits
theorem aclSetSelector_total (s : AclSelector) (op : Sds) : ∃ result, aclSetSelector config.table s op = .ok result := by
  cases read : ruleOf config.table op with
  | none =>
    obtain ⟨result, returned, -⟩ := (aclSetSelector_other s read).exists_ok
    exact ⟨result, returned⟩
  | some rule =>
    obtain ⟨s', applied⟩ := apply_ok s fun named inside => fits named ((ruleOf_known read).1 named inside)
    rw [aclSetSelector_rule s read, applied]
    exact ⟨_, rfl⟩

theorem applyOpSet_total (s : AclSelector) (ops : List Sds) : ∃ result, applyOpSet config.table s ops = .ok result := by
  induction ops generalizing s with
  | nil => exact ⟨_, rfl⟩
  | cons op ops ih =>
    obtain ⟨result, returned⟩ := aclSetSelector_total fits s op
    rw [applyOpSet, returned]
    cases result with
    | ok s' => exact ih s'
    | error errno => exact ⟨_, rfl⟩

theorem aclSetUser_total (u : User) (op : Sds) : ∃ result, aclSetUser config u op = .ok result := by
  unfold aclSetUser
  dsimp only
  generalize ({ u with aclString := none } : User) = u
  split_ifs
  · exact ⟨_, rfl⟩
  · rw [reset_eq]
    exact ⟨_, rfl⟩
  · unfold setUserWord
    cases setUserFlag u op with
    | some other => exact ⟨_, rfl⟩
    | none =>
      split_ifs
      · exact ⟨_, rfl⟩
      · exact ⟨_, rfl⟩
      · obtain ⟨result, returned⟩ := applyOpSet_total fits (aclCreateSelector config.aclPubsubDefault)
          ((SplitArgs.sdssplitargs ((op.drop 1).dropLast)).getD [])
        rw [aclCreateSelectorFromOpSet, returned]
        exact ⟨_, rfl⟩
      · exact ⟨_, rfl⟩
      · obtain ⟨result, returned⟩ := aclSetSelector_total fits u.root op
        rw [returned]
        exact ⟨_, rfl⟩
end Total

section File
variable {config : AclConfig}

def fileLines (content : Sds) : List Sds := sdssplitlen (readAcls 0 false content) 10

/-- The name and the arguments of a line that defines a user. -/
def userLine (line : Sds) : Option (Sds × List Sds) :=
  match sdssplitlen (Aof.sdstrim line [32, 9, 13, 10]) 32 with
  | keyword :: name :: argv => if keyword = ascii "user" ∧ !aclStringHasSpaces name then some (name, argv) else none
  | _ => none

def trimArg (arg : Sds) : Sds := Aof.sdstrim arg [9, 13, 10]

/-- The user is the one that the line describes. -/
def LineDescribes (config : AclConfig) (line : Sds) (u : User) : Prop :=
  ∃ argv args, userLine line = some (u.name, argv) ∧ (aclMergeSelectorArguments argv).1 = some args ∧
    applyModifiers config (newUser config u.name) (args.map trimArg) = .ok (.ok u)

/-- The lines that are not blank describe the users, one for a name. -/
def Describes (config : AclConfig) (content : Sds) (users : List User) : Prop :=
  List.Forall₂ (LineDescribes config) ((fileLines content).filter (Aof.sdstrim · [32, 9, 13, 10] ≠ [])) users ∧
    (users.map (·.name)).Nodup

/-- A parenthesis stays open behind other arguments. -/
def danglingSelector (argv : List Sds) : Bool :=
  match aclMergeSelectorArguments argv with
  | (none, _ + 1) => true
  | _ => false

/-- No line that is the first to define its user has a parenthesis that stays open behind other arguments. -/
def balancedLines (seen : List Sds) : List Sds → Bool
  | [] => true
  | line :: rest =>
    match userLine line with
    | none => balancedLines seen rest
    | some (name, argv) =>
      if name ∈ seen then balancedLines seen rest
      else !danglingSelector argv && balancedLines (seen ++ [name]) rest

/-- Either the table holds the users of the file and the default user, or there are errors and nothing has changed. -/
def AllOrNothing (config : AclConfig) (state : AclState) (content : Sds) : Prop :=
  Outcome (aclLoadFromFile config state content) (fun _ => False) fun result =>
    (result.2 = [] ∧ ∃ users, Describes config content users ∧ result.1.users = users.filter (·.name ≠ defaultName) ∧
      result.1.defaultUser = (users.find? (·.name = defaultName)).getD (aclCreateDefaultUser config)) ∨
    (result.2 ≠ [] ∧ result.1 = state)

variable (fits : ∀ cmd ∈ config.table.commands, cmd.id < userCommandBitsCount)

include fits
theorem loadModifiers_spec (linenum : Nat) (args : List Sds) (u : User) (errors : List LoadError) (syntaxError : Bool)
    (noted : syntaxError = true → errors ≠ []) :
    ∃ u' errors', loadModifiers config linenum u errors syntaxError args = .ok (u', errors') ∧ u'.name = u.name ∧
      (errors' = [] → errors = [] ∧ applyModifiers config u (args.map trimArg) = .ok (.ok u')) := by
  induction args generalizing u errors syntaxError with
  | nil => exact ⟨u, errors, rfl, rfl, fun clean => ⟨clean, rfl⟩⟩
  | cons arg args ih =>
    obtain ⟨result, returned⟩ := aclSetUser_total fits u (trimArg arg)
    have failed : ∀ (more : List LoadError) (flag : Bool), more ≠ [] →
        ∃ u' errors', loadModifiers config linenum u more flag args = .ok (u', errors') ∧ u'.name = u.name ∧
          (errors' = [] → errors = [] ∧ applyModifiers config u ((arg :: args).map trimArg) = .ok (.ok u')) := by
      intro more flag some'
      obtain ⟨u', errors', loaded, name, clean⟩ := ih u more flag fun _ => some'
      exact ⟨u', errors', loaded, name, fun empty => absurd (clean empty).1 some'⟩
    rw [loadModifiers, show Aof.sdstrim arg [9, 13, 10] = trimArg arg from rfl, returned]
    cases result with
    | ok next =>
      obtain ⟨u', errors', loaded, name, clean⟩ := ih next errors syntaxError noted
      refine ⟨u', errors', loaded, name.trans (aclSetUser_name returned), fun empty => ⟨(clean empty).1, ?_⟩⟩
      rw [map_cons, applyModifiers, returned]
      exact (clean empty).2
    | error errno =>
      cases errno with
      | ENOENT => exact failed _ _ (by simp)
      | _ =>
        cases syntaxError with
        | true => exact failed _ _ (noted rfl)
        | false => exact failed _ _ (by simp)

omit fits in
theorem loadLine_none {line : Sds} (config : AclConfig) (users : List User) (errors : List LoadError) (linenum : Nat)
    (other : userLine line = none) :
    ∃ errors', loadLine config users errors linenum line = .ok (users, errors') ∧
      (errors' = [] → errors = [] ∧ Aof.sdstrim line [32, 9, 13, 10] = []) := by
  have reported : ∀ error : LoadError, errors ++ [error] = [] → errors = [] ∧ Aof.sdstrim line [32, 9, 13, 10] = [] := by
    intro error empty
    simp at empty
  unfold userLine at other
  unfold loadLine
  split at other
  next keyword name argv tokens =>
    simp only [tokens]
    split_ifs at other ⊢ with valid
    · exact ⟨_, rfl, reported _⟩
    · exact ⟨_, rfl, reported _⟩
    · simp_all
    · simp_all
  next more =>
    split
    next blank =>
      refine ⟨errors, rfl, fun empty => ⟨empty, ?_⟩⟩
      by_contra full
      rw [sdssplitlen, if_neg full] at blank
      exact splitOn_ne_nil _ _ blank
    next => exact ⟨_, rfl, reported _⟩
    next keyword name argv tokens => exact absurd tokens (more keyword name argv)

theorem loadLine_some {line name : Sds} {argv : List Sds} (users : List User) (errors : List LoadError) (linenum : Nat)
    (defines : userLine line = some (name, argv)) :
    if name ∈ users.map (·.name) then
      loadLine config users errors linenum line = .ok (users, errors ++ [.duplicateUser name linenum])
    else if danglingSelector argv then loadLine config users errors linenum line = .error .nullPointer
    else ∃ u errors', loadLine config users errors linenum line = .ok (users ++ [u], errors') ∧ u.name = name ∧
      (errors' = [] → errors = [] ∧ LineDescribes config line u) := by
  have tokens : ∃ keyword, sdssplitlen (Aof.sdstrim line [32, 9, 13, 10]) 32 = keyword :: name :: argv ∧
      keyword = ascii "user" ∧ aclStringHasSpaces name = false := by
    unfold userLine at defines
    split at defines
    next keyword name' argv' tokens =>
      split_ifs at defines with valid
      cases defines
      exact ⟨keyword, tokens, valid.1, by simpa using valid.2⟩
    next => cases defines
  obtain ⟨keyword, tokens, user, plain⟩ := tokens
  have seen : users.any (·.name = name) = true ↔ name ∈ users.map (·.name) := by
    simp
  unfold loadLine
  simp only [tokens, ne_eq, if_false, plain, Bool.false_eq_true, seen]
  split_ifs with duplicate dangling
  · rfl
  · unfold danglingSelector at dangling
    rw [loadUser]
    split at dangling
    next open' => simp only [open']; rfl
    next => cases dangling
  · rw [loadUser]
    unfold danglingSelector at dangling
    cases merged : aclMergeSelectorArguments argv with
    | mk args count =>
      rw [merged] at dangling
      cases args with
      | none =>
        cases count with
        | zero => exact ⟨_, _, rfl, rfl, fun empty => by simp at empty⟩
        | succ count => exact absurd rfl dangling
      | some args =>
        obtain ⟨u, errors', loaded, named, clean⟩ :=
          loadModifiers_spec fits linenum args (newUser config name) errors false (by simp)
        refine ⟨u, errors', by simp only [loaded]; rfl, named, fun empty => ⟨(clean empty).1, ?_⟩⟩
        rw [show name = u.name from named.symm] at defines clean
        exact ⟨argv, args, defines, by rw [merged], (clean empty).2⟩

/-- The loop over the lines returns when the lines are balanced, and reads the pointer `NULL` otherwise. -/
theorem loadLines_spec (lines : List Sds) (users : List User) (errors : List LoadError) (linenum : Nat)
    (distinct : (users.map (·.name)).Nodup) :
    Outcome (loadLines config users errors linenum lines) (fun _ => balancedLines (users.map (·.name)) lines = false)
      fun result => balancedLines (users.map (·.name)) lines = true ∧
        (result.2 = [] → errors = [] ∧ (result.1.map (·.name)).Nodup ∧ ∃ new, result.1 = users ++ new ∧
          List.Forall₂ (LineDescribes config) (lines.filter (Aof.sdstrim · [32, 9, 13, 10] ≠ [])) new) := by
  induction lines generalizing users errors linenum with
  | nil => exact ⟨rfl, fun clean => ⟨clean, distinct, [], by simp⟩⟩
  | cons line lines ih =>
    unfold balancedLines loadLines
    cases defines : userLine line with
    | none =>
      obtain ⟨errors₁, read, blank⟩ := loadLine_none config users errors linenum defines
      simp only [read]
      refine (ih users errors₁ (linenum + 1) distinct).mono fun result ⟨balanced, clean⟩ => ⟨balanced, fun empty => ?_⟩
      obtain ⟨empty₁, distinct', new, split, described⟩ := clean empty
      refine ⟨(blank empty₁).1, distinct', new, split, ?_⟩
      rwa [filter_cons_of_neg (by simp [(blank empty₁).2])]
    | some pair =>
      obtain ⟨name, argv⟩ := pair
      have step := loadLine_some fits users errors linenum defines
      by_cases seen : name ∈ users.map (·.name)
      · simp only [seen, if_true] at step ⊢
        simp only [step]
        refine (ih users _ (linenum + 1) distinct).mono fun result ⟨balanced, clean⟩ => ⟨balanced, fun empty => ?_⟩
        simpa using (clean empty).1
      · simp only [seen] at step ⊢
        cases dangling : danglingSelector argv with
        | true =>
          rw [dangling] at step
          rw [step]
          exact rfl
        | false =>
          rw [dangling] at step
          obtain ⟨u, errors₁, read, named, describes⟩ := step
          have distinct₁ : ((users ++ [u]).map (·.name)).Nodup := by
            rw [map_append, map_singleton, named, ← concat_eq_append]
            exact distinct.concat seen
          have rest := ih (users ++ [u]) errors₁ (linenum + 1) distinct₁
          rw [map_append, map_singleton, named] at rest
          simp only [read]
          refine rest.mono fun result ⟨balanced, clean⟩ => ⟨balanced, fun empty => ?_⟩
          obtain ⟨empty₁, distinct', new, split, described⟩ := clean empty
          obtain ⟨empty₀, line'⟩ := describes empty₁
          refine ⟨empty₀, distinct', u :: new, by simp [split], ?_⟩
          have full : Aof.sdstrim line [32, 9, 13, 10] ≠ [] := by
            intro blank
            simp [userLine, blank, sdssplitlen] at defines
          rw [filter_cons_of_pos (by simpa using full)]
          exact .cons line' described

/-- When the identifiers of the commands fit the bitmap, `ACL LOAD` is all or nothing exactly for the files whose lines are
balanced. -/
theorem load_all_or_nothing (state : AclState) (content : Sds) :
    AllOrNothing config state content ↔ balancedLines [] (fileLines content) = true := by
  unfold AllOrNothing aclLoadFromFile
  rw [show sdssplitlen (readAcls 0 false content) 10 = fileLines content from rfl]
  have spec := loadLines_spec fits (fileLines content) [] [] 1 nodup_nil
  cases loaded : loadLines config [] [] 1 (fileLines content) with
  | error fault =>
    have unbalanced : balancedLines [] (fileLines content) = false := spec.of_error loaded
    simp only [unbalanced, Bool.false_eq_true, iff_false]
    exact id
  | ok result =>
    obtain ⟨balanced, clean⟩ := spec.of_ok loaded
    simp only [show balancedLines [] (fileLines content) = true from balanced, iff_true, ok_bind]
    by_cases empty : result.2 = []
    · obtain ⟨-, distinct, new, split, described⟩ := clean empty
      rw [if_pos empty]
      subst split
      exact .inl ⟨rfl, result.1, ⟨described, distinct⟩, rfl, rfl⟩
    · rw [if_neg empty]
      exact .inr ⟨empty, rfl⟩

omit fits in
theorem load_all_or_nothing_sample : AllOrNothing sampleConfig sampleState (ascii "user bob on +@read (-get ~a)") ↔
      balancedLines [] (fileLines (ascii "user bob on +@read (-get ~a)")) = true :=
  load_all_or_nothing (by decide) sampleState _

omit fits in
/-- The parenthesis stays open behind another modifier. -/
theorem load_null_pointer :
    Outcome (aclLoadFromFile sampleConfig sampleState (ascii "user bob on (+get")) (fun fault => fault = .nullPointer)
      fun _ => False := by
  decide +kernel
end File
end Redis.Acl

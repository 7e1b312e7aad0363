/- This file shows when the description of a user is produced: the rules that a selector retains can be split and applied
again, and they lead to the same bitmap. -/
import Redis.Foundation.Overwrite
import Redis.Proof.Acl.Load
import Redis.Proof.SplitArgs.Quoting

namespace Redis.Acl
open Foundation List
open Redis.Aof (ascii)
variable {text : Sds} {cmd : RedisCommand} {base : Bool}

variable {table : CommandTable}

theorem tolower_tolower (char : UInt8) : tolower (tolower char) = tolower char := by
  unfold tolower
  split_ifs with upper again
  · simp only [UInt8.le_iff_toNat_le, UInt8.toNat_add, UInt8.reduceToNat] at upper again
    omega
  · rfl
  · rfl

theorem tolower_eq_iff {char other : UInt8} (small : other < 65) : tolower char = other ↔ char = other := by
  simp only [tolower, ← UInt8.toNat_inj, UInt8.lt_iff_toNat_lt, UInt8.reduceToNat] at small ⊢
  split_ifs with upper
  · simp only [UInt8.le_iff_toNat_le, UInt8.toNat_add, UInt8.reduceToNat] at upper ⊢
    omega
  · rfl

theorem lower_lower (s : Sds) : (s.map tolower).map tolower = s.map tolower := by
  simp [tolower_tolower]

theorem cString_lower (s : Sds) : Aof.cString (s.map tolower) = (Aof.cString s).map tolower := by
  rw [Aof.cString, takeWhile_map]
  congr 2
  funext char
  simp [tolower_eq_iff (show (0 : UInt8) < 65 by decide)]

theorem sameIgnoringCase_lower (s t : Sds) : Aof.sameIgnoringCase (s.map tolower) t = Aof.sameIgnoringCase s t := by
  rw [Aof.sameIgnoringCase, cString_lower, lower_lower, Aof.sameIgnoringCase]

theorem splitOn_lower (s : Sds) : (s.map tolower).splitOn 124 = (s.splitOn 124).map (·.map tolower) := by
  unfold List.splitOn
  induction s with
  | nil => rfl
  | cons char s ih =>
    rw [map_cons, splitOnP_cons_eq_if_modifyHead, splitOnP_cons_eq_if_modifyHead, ih]
    simp only [beq_iff_eq, tolower_eq_bar]
    split_ifs
    · rfl
    · cases s.splitOnP (· == 124) <;> rfl

theorem aclLookupCommand_lower (name : Sds) : aclLookupCommand table (name.map tolower) = aclLookupCommand table name := by
  rw [aclLookupCommand, aclLookupCommand, cString_lower]
  generalize Aof.cString name = name
  have split : sdssplitlen (name.map tolower) 124 = (sdssplitlen name 124).map (·.map tolower) := by
    simp only [sdssplitlen, map_eq_nil_iff, splitOn_lower]
    split_ifs <;> rfl
  unfold lookupCommandBySdsLogic
  rw [split]
  rcases sdssplitlen name 124 with _ | ⟨name, _ | ⟨subname, _ | ⟨third, rest⟩⟩⟩
  · rfl
  · simp only [map_cons, map_nil, sameIgnoringCase_lower]
  · simp only [map_cons, map_nil, sameIgnoringCase_lower]
  · rfl

/-- The rule that is read from the text in lower case. -/
def CommandRule.lowered : CommandRule → CommandRule
  | .firstArg cmd arg => .firstArg cmd (arg.map tolower)
  | rule => rule

theorem readBarred_lower (text : Sds) :
    readBarred table (text.map tolower) = (readBarred table text).map CommandRule.lowered := by
  have sub : ((text.map tolower).reverse.takeWhile (· ≠ 124)).reverse =
      (text.reverse.takeWhile (· ≠ 124)).reverse.map tolower := by
    rw [← map_reverse, takeWhile_map, map_reverse]
    congr 3
    funext char
    simp [tolower_eq_bar]
  unfold readBarred
  simp only [sub, length_map, ← map_take, aclLookupCommand_lower, map_eq_nil_iff]
  generalize (text.reverse.takeWhile (· ≠ 124)).reverse = sub
  cases aclLookupCommand table (text.take (text.length - sub.length - 1)) with
  | none => rfl
  | some cmd =>
    dsimp only
    split_ifs
    · rfl
    · cases aclLookupCommand table text <;> rfl
    · rfl

theorem ruleOf_lower (sign : UInt8) (text : Sds) (signed : sign = 43 ∨ sign = 45) :
    ruleOf table (sign :: (Aof.cString text).map tolower) = (ruleOf table (sign :: text)).map CommandRule.lowered := by
  have word : ∀ word, isWord (sign :: (Aof.cString text).map tolower) word = isWord (sign :: text) word := by
    intro word
    have same : sign :: (Aof.cString text).map tolower = (sign :: Aof.cString text).map tolower := by
      rcases signed with rfl | rfl <;> rfl
    have cut : Aof.cString (sign :: Aof.cString text) = Aof.cString (sign :: text) := by
      have whole := cString_of_notMem (zero_notMem_cString text)
      rcases signed with rfl | rfl <;> simpa [Aof.cString] using whole
    rw [isWord, same, sameIgnoringCase_lower, isWord, Aof.sameIgnoringCase, cut, Aof.sameIgnoringCase]
  have cut : Aof.cString ((Aof.cString text).map tolower) = (Aof.cString text).map tolower := by
    rw [cString_lower, cString_of_notMem (zero_notMem_cString text)]
  have head : ((Aof.cString text).map tolower).head? = some 64 ↔ (Aof.cString text).head? = some 64 := by
    simp [tolower_eq_iff (show (64 : UInt8) < 65 by decide)]
  have category : aclGetCommandCategoryFlagByName (((Aof.cString text).map tolower).drop 1) =
      aclGetCommandCategoryFlagByName ((Aof.cString text).drop 1) := by
    simp only [aclGetCommandCategoryFlagByName, ← map_drop, sameIgnoringCase_lower]
  unfold ruleOf
  simp only [word, head?_cons, drop_succ_cons, drop_zero, cut, ne_eq, head, bar_mem_lower, category,
    readBarred_lower, aclLookupCommand_lower]
  split_ifs <;> simp [CommandRule.lowered, Function.comp_def]

/-- A rule as it is retained in the text of a selector. -/
structure Retained (table : CommandTable) where
  sign : UInt8
  text : Sds
  rule : CommandRule
  signed : sign = 43 ∨ sign = 45
  plain : ∀ char ∈ text, SplitArgs.Plain char
  lower : text.map tolower = text
  read : ruleOf table (sign :: text) = some rule
  named : ∀ allow, rule ≠ .all allow

variable (newRule : Sds) (retained : Retained table) (rules : List (Retained table))

def Retained.op : Sds := retained.sign :: retained.text

/-- The retained rules with a space behind each of them. -/
def spaced : Sds := rules.flatMap fun retained => retained.op ++ [32]

/-- The retained rules with a space between them. -/
def rulesText : Sds := (spaced rules).dropLast

theorem spaced_concat (last : Retained table) : spaced (rules ++ [last]) = spaced rules ++ last.op ++ [32] := by
  simp [spaced]

theorem rulesText_concat (last : Retained table) : rulesText (rules ++ [last]) = spaced rules ++ last.op := by
  rw [rulesText, spaced_concat, dropLast_concat]

theorem rulesText_singleton : rulesText [retained] = retained.op := rulesText_concat [] retained

theorem rulesText_cons (retained next : Retained table) (rest : List (Retained table)) :
    rulesText (retained :: next :: rest) = retained.op ++ 32 :: rulesText (next :: rest) := by
  have more : spaced (next :: rest) ≠ [] := by simp [spaced]
  rw [rulesText, spaced, flatMap_cons, ← spaced, dropLast_append_of_ne_nil more, append_assoc]
  rfl

theorem rulesText_eq_nil : rulesText rules = [] ↔ rules = [] := by
  induction rules using List.reverseRecOn with
  | nil => simp [rulesText, spaced]
  | append_singleton rules last _ => simp [rulesText_concat, Retained.op]

theorem spaced_eq : (if rulesText rules = [] then rulesText rules else rulesText rules ++ [32]) = spaced rules := by
  induction rules using List.reverseRecOn with
  | nil => rfl
  | append_singleton rules last _ =>
    rw [if_neg (by simp [rulesText_eq_nil]), rulesText_concat, spaced_concat]

theorem length_le_rulesText : rules.length ≤ (rulesText rules).length := by
  have spaces : 2 * rules.length ≤ (spaced rules).length := by
    induction rules with
    | nil => exact Nat.le_refl 0
    | cons retained rules ih =>
      simp only [spaced, flatMap_cons, length_append, Retained.op, length_cons] at ih ⊢
      omega
  rw [rulesText, length_dropLast]
  omega

theorem Retained.spaceless : ∀ char ∈ retained.text, decide (char ≠ 32) = true := by
  intro char member
  simpa using fun space => (retained.plain char member).2.1 (.inl space)

/-- The rule does not match the new rule. -/
def Retained.keeps : Bool := !matchesRule retained.text newRule

theorem removeRuleLoop_nil (fuel : Nat) (kept : Sds) : removeRuleLoop newRule fuel kept [] = kept := by
  cases fuel <;> simp [removeRuleLoop]

theorem removeRuleLoop_rulesText (rest : List (Retained table)) (front : List (Retained table)) (fuel : Nat)
    (more : rest ≠ []) (enough : rest.length ≤ fuel) : removeRuleLoop newRule fuel (spaced front) (rulesText rest) =
      rulesText (front ++ rest.filter (Retained.keeps newRule)) := by
  induction rest generalizing front fuel with
  | nil => exact absurd rfl more
  | cons retained rest ih =>
    obtain ⟨fuel, rfl⟩ : ∃ fuel', fuel = fuel' + 1 := Nat.exists_eq_add_one_of_ne_zero (by simp at enough; omega)
    rw [filter_cons]
    cases rest with
    | nil =>
      have existing := takeWhile_eq_self_iff.2 retained.spaceless
      have ruleEnd := dropWhile_eq_nil_iff.2 retained.spaceless
      simp only [rulesText_singleton, Retained.op, removeRuleLoop, existing, ruleEnd, drop_nil, removeRuleLoop_nil,
        take_nil, append_nil, true_and, Retained.keeps, filter_nil]
      by_cases matched : matchesRule retained.text newRule = true
      · by_cases empty : spaced front = []
        · simp [matched, empty, rulesText]
        · simp [matched, empty, rulesText]
      · simp [matched, rulesText_concat, Retained.op]
    | cons next rest =>
      have existing : (retained.text ++ 32 :: rulesText (next :: rest)).takeWhile (· ≠ 32) = retained.text := by
        rw [takeWhile_append_of_pos retained.spaceless, takeWhile_cons_of_neg (by decide), append_nil]
      have ruleEnd : (retained.text ++ 32 :: rulesText (next :: rest)).dropWhile (· ≠ 32) =
          32 :: rulesText (next :: rest) := by
        rw [dropWhile_append_of_pos retained.spaceless, dropWhile_cons_of_neg (by decide)]
      have later := fun front => ih front fuel (by simp) (by simpa using enough)
      rw [rulesText_cons, Retained.op, cons_append, removeRuleLoop]
      simp only [existing, ruleEnd, Retained.keeps, drop_succ_cons, drop_zero, take_succ_cons,
        take_zero, reduceCtorEq, false_and, if_false]
      by_cases matched : matchesRule retained.text newRule = true
      · simpa [matched] using later front
      · have grown := later (front ++ [retained])
        rw [spaced_concat] at grown
        simpa [matched, Retained.op] using grown

theorem aclSelectorRemoveCommandRule_rulesText :
    aclSelectorRemoveCommandRule (rulesText rules) newRule = rulesText (rules.filter (Retained.keeps newRule)) := by
  cases rules with
  | nil => rfl
  | cons retained rules =>
    exact removeRuleLoop_rulesText newRule _ [] _ (by simp) (length_le_rulesText _)

theorem retainRule_rulesText {retained : Retained table} {allow : Bool}
    (same : text.map tolower = retained.text) (sign : retained.sign = if allow then 43 else 45) :
    retainRule (rulesText rules) text allow = rulesText (rules.filter (Retained.keeps retained.text) ++ [retained]) := by
  simp only [retainRule, same, aclSelectorRemoveCommandRule_rulesText, spaced_eq, rulesText_concat, Retained.op, sign]
  simp

theorem sdssplitargs_rulesText : SplitArgs.sdssplitargs (rulesText rules) = some (rules.map (·.op)) := by
  suffices split : ∀ vector, SplitArgs.splitLoop vector 0 (rulesText rules) = some (vector ++ rules.map (·.op)) from split []
  induction rules with
  | nil => simp [rulesText, spaced, SplitArgs.splitLoop]
  | cons retained rules ih =>
    intro vector
    have plain : ∀ char ∈ retained.op, SplitArgs.Plain char := by
      intro char member
      rcases mem_cons.1 member with rfl | inside
      · rcases retained.signed with same | same <;> rw [same] <;> decide
      · exact retained.plain char inside
    have visible : isspace retained.sign = false := by
      rcases retained.signed with same | same <;> rw [same] <;> decide
    cases rules with
    | nil => exact rulesText_singleton retained ▸ SplitArgs.splitLoop_last plain visible vector
    | cons next rest =>
      have first := SplitArgs.splitLoop_word plain visible vector (rulesText (next :: rest))
      rw [rulesText_cons, Retained.op, first, ih]
      simp [Retained.op]

theorem last_bar (bar : 124 ∈ text) : let sub := (text.reverse.takeWhile (· ≠ 124)).reverse
    text = text.take (text.length - sub.length - 1) ++ 124 :: sub := by
  intro sub
  have split : text.reverse.takeWhile (fun char => decide (char ≠ 124)) ++
      text.reverse.dropWhile (fun char => decide (char ≠ 124)) = text.reverse := takeWhile_append_dropWhile
  obtain ⟨char, front, rest⟩ : ∃ char front, text.reverse.dropWhile (fun char => decide (char ≠ 124)) = char :: front := by
    apply exists_cons_of_ne_nil
    intro none
    simpa using dropWhile_eq_nil_iff.1 none 124 (mem_reverse.2 bar)
  have stop : char = 124 := by
    have head := head?_dropWhile_not (fun char => decide (char ≠ 124)) text.reverse
    rw [rest] at head
    simpa using head
  subst stop
  have whole : text = front.reverse ++ 124 :: sub := by
    rw [← text.reverse_reverse, ← split, rest]
    simp [sub]
  have cut : text.length - sub.length - 1 = front.reverse.length := by
    rw [whole]
    simp
    omega
  rw [cut]
  nth_rewrite 2 [whole]
  rw [take_left, ← whole]

theorem readBarred_cases {rule : CommandRule} (bar : 124 ∈ text) (read : readBarred table text = some rule) :
    (∃ cmd, aclLookupCommand table text = some cmd ∧ rule = .command true cmd) ∨
      ∃ cmd arg copy, rule = .firstArg cmd arg ∧ text = copy ++ 124 :: arg ∧ aclLookupCommand table copy = some cmd ∧
        cmd.subcommandsDict = none := by
  have split := last_bar bar
  unfold readBarred at read
  dsimp only at read split
  generalize (text.reverse.takeWhile (· ≠ 124)).reverse = sub at read split
  split at read
  · cases read
  next cmd found =>
    split_ifs at read with bad container
    · obtain ⟨other, known, rfl⟩ := Option.map_eq_some_iff.1 read
      exact .inl ⟨other, known, rfl⟩
    · obtain rfl := Option.some.inj read
      exact .inr ⟨cmd, sub, _, rfl, split, found, by simpa using container⟩

theorem Retained.kinds (retained : Retained table) :
    (∃ allow cmd, retained.text.head? ≠ some 64 ∧ aclLookupCommand table retained.text = some cmd ∧
        retained.rule = .command allow cmd) ∨
      (∃ cmd arg copy, retained.text.head? ≠ some 64 ∧ retained.rule = .firstArg cmd arg ∧
        retained.text = copy ++ 124 :: arg ∧ aclLookupCommand table copy = some cmd ∧ cmd.subcommandsDict = none) ∨
      ∃ allow cflag, retained.text.head? = some 64 ∧
        aclGetCommandCategoryFlagByName (retained.text.drop 1) = some cflag ∧ retained.rule = .category allow cflag := by
  have cut : Aof.cString retained.text = retained.text :=
    cString_of_notMem fun member => (retained.plain 0 member).1 rfl
  have kinds := ruleOf_cases retained.read
  simp only [drop_succ_cons, drop_zero, cut] at kinds
  rcases kinds with ⟨allow, all⟩ | ⟨head, bar, barred⟩ | ⟨allow, cmd, head, known, same⟩ | category
  · exact absurd all (retained.named allow)
  · rcases readBarred_cases bar barred with ⟨cmd, known, same⟩ | ⟨cmd, arg, copy, same, split, known, childless⟩
    · exact .inl ⟨true, cmd, head, known, same⟩
    · exact .inr (.inl ⟨cmd, arg, copy, head, same, split, known, childless⟩)
  · exact .inl ⟨allow, cmd, head, known, same⟩
  · exact .inr (.inr category)

/-- A rule that matches is the new one or goes on behind it with a bar. -/
theorem matchesRule_cases {existing newRule : Sds} (matched : matchesRule existing newRule = true) :
    existing = newRule ∨ ∃ behind, existing = newRule ++ 124 :: behind := by
  simp only [matchesRule, decide_eq_true_eq] at matched
  obtain ⟨same, equal | ⟨longer, bar⟩⟩ := matched
  · left
    rwa [equal, Nat.min_self, take_length, ← equal, take_length] at same
  · right
    rw [Nat.min_eq_right (by omega), take_length] at same
    obtain ⟨char, behind, rest⟩ : ∃ char behind, existing.drop newRule.length = char :: behind := by
      apply exists_cons_of_ne_nil
      simpa using longer
    have split := take_append_drop newRule.length existing
    rw [same, rest] at split
    have stop : char = 124 := by
      rw [← bar, ← split]
      simp
    exact ⟨behind, by rw [← stop, split]⟩

/-- A command whose text goes on behind the text of another one is a subcommand of it. -/
theorem sub_of_lookup {behind : Sds} {sub : RedisCommand} (terminated : 0 ∉ text ++ 124 :: behind)
    (known : aclLookupCommand table text = some cmd) (found : aclLookupCommand table (text ++ 124 :: behind) = some sub) :
    ∃ (entry : TableEntry) (row : CommandRow), cmd = entry.command ∧ sub = entry.subcommand row ∧
      row ∈ entry.subcommandsDict.getD [] := by
  obtain ⟨listed, named⟩ := lookup_fullname (fun zero => terminated (mem_append_left _ zero)) known
  obtain ⟨inside, subNamed⟩ := lookup_fullname terminated found
  rw [map_append, map_cons, ← named] at subNamed
  have bar : (tolower 124 : UInt8) = 124 := by decide
  rw [bar] at subNamed
  obtain ⟨entry, member, rfl | ⟨row, rowMember, rfl⟩⟩ := mem_commands.1 inside
  · -- A command without a container has no bar in its name.
    have barless := table.barless entry member entry.command mem_cons_self
    apply absurd ((bar_mem_lower _).1 _) barless
    change 124 ∈ entry.name.map tolower
    rw [show entry.name.map tolower = _ from subNamed]
    simp
  have subBarless := table.barless entry member (entry.subcommand row)
    (mem_cons_of_mem _ (mem_map_of_mem rowMember))
  have joined : (entry.subcommand row).fullname.map tolower = entry.name.map tolower ++ 124 :: row.name.map tolower := by
    simp [RedisCommand.fullname, TableEntry.subcommand, bar]
  have barless := table.barless entry member entry.command mem_cons_self
  have parts := (append_cons_inj_of_notMem (mt (bar_mem_lower _).1 barless) (mt (bar_mem_lower _).1 subBarless)).1
    (joined.symm.trans subNamed)
  refine ⟨entry, row, ?_, rfl, rowMember⟩
  exact eq_of_fullname listed (mem_commands.2 ⟨entry, member, .inl rfl⟩) parts.1.symm

theorem category_barless {name : Sds} {cflag : Category} (terminated : 0 ∉ name)
    (known : aclGetCommandCategoryFlagByName name = some cflag) : 124 ∉ name := by
  obtain ⟨item, found, -⟩ := Option.map_eq_some_iff.1 known
  have listed := mem_of_find?_eq_some found
  have named := find?_some found
  simp only [Aof.sameIgnoringCase, decide_eq_true_eq, cString_of_notMem terminated] at named
  rw [← bar_mem_lower, named]
  exact (by decide : ∀ item ∈ aclCommandCategories, 124 ∉ (Aof.cString (ascii item.1)).map tolower) item listed

/-- The bits that a rule changes. -/
def CommandRule.touched (table : CommandTable) : CommandRule → List Nat
  | .category _ cflag => (table.inCategory cflag).flatMap (·.touched)
  | .command _ cmd => cmd.touched
  | _ => []

/-- A rule that is removed changes no other bits than the rule it is removed for. -/
theorem touched_subset {old new : Retained table} (matched : matchesRule old.text new.text = true) :
    old.rule.touched table ⊆ new.rule.touched table := by
  have terminated : 0 ∉ old.text := fun zero => (old.plain 0 zero).1 rfl
  have filled : new.text ≠ [] := by
    intro empty
    rcases new.kinds with ⟨allow, cmd, -, known, -⟩ | ⟨cmd, arg, copy, -, -, split, -⟩ | ⟨allow, cflag, head, -⟩
    · rw [empty] at known
      cases known
    · simp [empty] at split
    · simp [empty] at head
  have heads : old.text.head? = new.text.head? := by
    rcases matchesRule_cases matched with same | ⟨behind, same⟩
    · rw [same]
    · rw [same, head?_append_of_ne_nil _ filled]
  rcases old.kinds with ⟨allow, cmd, plain, known, rule⟩ | ⟨cmd, arg, copy, -, rule, -⟩ | ⟨allow, cflag, at', known, rule⟩
  · rcases new.kinds with ⟨_, cmd', -, known', rule'⟩ | ⟨cmd', arg, copy, -, -, split, known', childless⟩ | ⟨_, _, at'', -⟩
    · rw [rule, rule']
      rcases matchesRule_cases matched with same | ⟨behind, same⟩
      · rw [same, known'] at known
        obtain rfl := Option.some.inj known
        exact List.Subset.refl _
      · rw [same] at known terminated
        obtain ⟨entry, row, rfl, rfl, member⟩ := sub_of_lookup terminated known' known
        intro id touched
        obtain rfl := mem_singleton.1 touched
        exact mem_cons_of_mem _ (mem_map_of_mem member)
    · -- A command that has first arguments has no subcommands.
      obtain ⟨behind, same⟩ : ∃ behind, old.text = copy ++ 124 :: behind := by
        rcases matchesRule_cases matched with same | ⟨behind, same⟩
        · exact ⟨arg, same.trans split⟩
        · exact ⟨arg ++ 124 :: behind, by rw [same, split]; simp⟩
      rw [same] at known terminated
      obtain ⟨entry, row, rfl, rfl, member⟩ := sub_of_lookup terminated known' known
      have none' : entry.subcommandsDict = none := childless
      simp [none'] at member
    · exact absurd (heads.trans at'') plain
  · rw [rule]
    exact nil_subset _
  · rcases new.kinds with ⟨_, _, plain, -⟩ | ⟨_, _, _, plain, -⟩ | ⟨_, cflag', -, known', rule'⟩
    · exact absurd (heads.symm.trans at') plain
    · exact absurd (heads.symm.trans at') plain
    · rw [rule, rule']
      rcases matchesRule_cases matched with same | ⟨behind, same⟩
      · rw [same, known'] at known
        obtain rfl := Option.some.inj known
        exact List.Subset.refl _
      · have barless := category_barless (fun zero => terminated (mem_of_mem_drop zero)) known
        obtain ⟨char, rest, text⟩ := exists_cons_of_ne_nil filled
        simp [same, text] at barless

section Invariant
variable {table : CommandTable} {s s' : AclSelector} {rule : CommandRule}

def CommandRule.isFirstArg : CommandRule → Bool
  | .firstArg _ _ => true
  | _ => false

/-- The commands that the rule applies to have a cell in the table of first arguments. -/
def CommandRule.Fits (table : CommandTable) (rule : CommandRule) : Prop :=
  ∀ named ∈ rule.commands table, named.id < userCommandBitsCount

/-- The bits that a rule changes and their value. -/
def CommandRule.write (table : CommandTable) (rule : CommandRule) : Write Nat Bool :=
  ⟨fun cell => cell ∈ rule.touched table, rule.allows⟩

theorem write_lowered (rule : CommandRule) : rule.lowered.write table = rule.write table := by
  cases rule <;> rfl

theorem fits_lowered (rule : CommandRule) : rule.lowered.Fits table ↔ rule.Fits table := by
  cases rule <;> rfl

theorem isFirstArg_lowered (rule : CommandRule) : rule.lowered.isFirstArg = rule.isFirstArg := by
  cases rule <;> rfl

/-- The bits of a selector. -/
def AclSelector.bits (s : AclSelector) : Nat → Bool := s.allowedCommands.getLsbD

/-- What an applied rule changes. -/
structure Applied (table : CommandTable) (rule : CommandRule) (s s' : AclSelector) : Prop where
  bits : ∀ cell < userCommandBitsCount, s'.bits cell = (rule.write table).apply s.bits cell
  patterns : s'.patterns = s.patterns
  allocated : s'.allowedFirstargs.isSome = (s.allowedFirstargs.isSome || rule.isFirstArg)
  fits : s'.allowedFirstargs.isSome = true → rule.Fits table

theorem changed_cases {touched resets : List Nat} {value : Bool} (applied : changed touched resets value s = .ok s') :
    (∀ cell < userCommandBitsCount, s'.bits cell = Write.apply ⟨fun cell => cell ∈ touched, value⟩ s.bits cell) ∧
      s'.patterns = s.patterns ∧ s'.allowedFirstargs.isSome = s.allowedFirstargs.isSome ∧
      (s.allowedFirstargs.isSome = true → ∀ id ∈ resets, id < userCommandBitsCount) := by
  unfold changed at applied
  split_ifs at applied with fault
  cases applied
  refine ⟨fun cell inside => ?_, rfl, Option.isSome_map, ?_⟩
  · change (setBits touched value s).allowedCommands.getLsbD cell = _
    rw [setBits_get touched value s inside, Write.apply]
    simp [AclSelector.bits]
  intro allocated id member
  by_contra outside
  exact fault ⟨allocated, id, member, Nat.not_lt.1 outside⟩

theorem applied_of_ok (named : ∀ allow, rule ≠ .all allow) (applied : rule.apply table s = .ok s') :
    Applied table rule s s' := by
  cases rule with
  | all allow => exact absurd rfl (named allow)
  | category allow cflag =>
    obtain ⟨bits, patterns, allocated, fits⟩ := changed_cases applied
    refine ⟨bits, patterns, by simp [allocated, CommandRule.isFirstArg], fun some cmd member => ?_⟩
    exact fits (allocated ▸ some) cmd.id (mem_map_of_mem member)
  | command allow cmd =>
    obtain ⟨bits, patterns, allocated, fits⟩ := changed_cases applied
    refine ⟨bits, patterns, by simp [allocated, CommandRule.isFirstArg], fun some other member => ?_⟩
    rw [mem_singleton.1 member]
    exact fits (allocated ▸ some) cmd.id (mem_singleton_self _)
  | firstArg cmd arg =>
    rw [CommandRule.apply, aclAddAllowedFirstArg_eq] at applied
    split_ifs at applied with inside
    cases applied
    refine ⟨fun cell _ => by simp [Write.apply, CommandRule.write, CommandRule.touched, AclSelector.bits], rfl,
      by simp [CommandRule.isFirstArg], fun _ named member => ?_⟩
    obtain rfl := mem_singleton.1 member
    exact inside

/-- A rule stops the process only where it reads the table of first arguments. -/
theorem apply_returns (needs : s.allowedFirstargs.isSome = true ∨ rule.isFirstArg = true → rule.Fits table) :
    ∃ s', rule.apply table s = .ok s' := by
  by_cases fits : rule.Fits table
  · exact apply_ok s fits
  obtain ⟨free, other⟩ := not_or.1 (mt needs fits)
  cases rule with
  | all allow => exact ⟨_, rfl⟩
  | category allow cflag => exact ⟨_, if_neg fun fault => free fault.1⟩
  | command allow cmd => exact ⟨_, if_neg fun fault => free fault.1⟩
  | firstArg cmd arg => exact absurd rfl other

/-- The retained rules lead from a bitmap that is the same for all commands to the bitmap of the selector, and the table
of first arguments has a cell for every rule that is applied behind a first argument. -/
structure Describable (table : CommandTable) (s : AclSelector) (base : Bool) (rules : List (Retained table)) : Prop where
  text : s.commandRules = rulesText rules
  bits : ∀ cell < userCommandBitsCount, s.bits cell = afterWrites (rules.map (·.rule.write table)) (fun _ => base) cell
  patterned : s.Patterned
  ordered : rules.Pairwise fun first later => first.rule.isFirstArg = true → later.rule.Fits table
  allocated : ∀ retained ∈ rules, retained.rule.isFirstArg = true →
    retained.rule.Fits table ∧ s.allowedFirstargs.isSome = true

theorem describable_all (s : AclSelector) (allow : Bool) (patterned : s.Patterned) :
    Describable table (changeAllCommands s allow) allow [] := by
  constructor
  · rfl
  · intro cell inside
    have width : cell < 1024 := inside
    cases allow with
    | true => simp only [AclSelector.bits, changeAllCommands, if_true, BitVec.getLsbD_allOnes, width, decide_true,
        map_nil, afterWrites_nil]
    | false => simp [AclSelector.bits, changeAllCommands]
  · exact patterned
  · exact List.Pairwise.nil
  · intro retained member
    cases member

/-- A modifier with a sign has only plain characters behind it. -/
def PlainRule (op : Sds) : Prop := op.head? = some 43 ∨ op.head? = some 45 → ∀ char ∈ op.drop 1, SplitArgs.Plain char

instance (op : Sds) : Decidable (PlainRule op) :=
  decidable_of_iff (op.head? = some 43 ∨ op.head? = some 45 → ((op.drop 1).all fun char => SplitArgs.Plain char) = true)
    (by simp only [all_eq_true, decide_eq_true_eq, PlainRule])

theorem exists_retained {op : Sds} (plain : PlainRule op) (read : ruleOf table op = some rule)
    (named : ∀ allow, rule ≠ .all allow) :
    ∃ retained : Retained table, retained.rule = rule.lowered ∧
      retained.text = (Aof.cString (op.drop 1)).map tolower ∧
      retained.sign = if decide (op.head? = some 43) = true then 43 else 45 := by
  obtain ⟨sign, head, signed⟩ : ∃ sign, op.head? = some sign ∧ (sign = 43 ∨ sign = 45) := by
    by_contra unsigned
    have other : ∀ sign : UInt8, sign = 43 ∨ sign = 45 → op.head? ≠ some sign :=
      fun sign same head => unsigned ⟨sign, head, same⟩
    simp only [ruleOf, other 43 (.inl rfl), other 45 (.inr rfl), false_and, or_self, if_false] at read
    split_ifs at read
    · exact named true (Option.some.inj read).symm
    · exact named false (Option.some.inj read).symm
  obtain ⟨text, rfl⟩ := head?_eq_some_iff.1 head
  have retained : ruleOf table (sign :: (Aof.cString text).map tolower) = some rule.lowered := by
    rw [ruleOf_lower sign text signed, read, Option.map_some]
  refine ⟨⟨sign, (Aof.cString text).map tolower, rule.lowered, signed, ?_, lower_lower _, retained, ?_⟩, rfl, rfl, ?_⟩
  · intro char member
    obtain ⟨original, inside, rfl⟩ := mem_map.1 member
    have plain := plain (by rcases signed with rfl | rfl <;> simp) original (takeWhile_subset _ inside)
    have same : ∀ other : UInt8, other < 65 → (tolower original = other ↔ original = other) := fun _ => tolower_eq_iff
    unfold SplitArgs.Plain
    rw [same 32 (by decide), same 10 (by decide), same 13 (by decide), same 9 (by decide)]
    exact ⟨mt (same 0 (by decide)).1 plain.1, plain.2.1, mt (same 34 (by decide)).1 plain.2.2.1,
      mt (same 39 (by decide)).1 plain.2.2.2⟩
  · intro allow all
    cases rule with
    | all other => exact named other rfl
    | _ => cases all
  · rcases signed with rfl | rfl <;> rfl

theorem describable_rule {rules : List (Retained table)} {retained : Retained table}
    (before : Describable table s base rules) (applied : Applied table retained.rule s s') :
    Describable table { s' with commandRules := rulesText (rules.filter (Retained.keeps retained.text) ++ [retained]) } base
      (rules.filter (Retained.keeps retained.text) ++ [retained]) := by
  have kept : ∀ {old}, old ∈ rules.filter (Retained.keeps retained.text) → old ∈ rules := fun member => mem_of_mem_filter member
  constructor
  · rfl
  · intro cell inside
    have covered := afterWrites_filter_covered (fun old : Retained table => old.rule.write table)
      (Retained.keeps retained.text) rules (retained.rule.write table) (fun _ => base) fun old _ dropped cell touched => by
        simp only [CommandRule.write, decide_eq_true_eq] at touched ⊢
        exact touched_subset (by simpa [Retained.keeps] using dropped) touched
    rw [map_append, map_singleton, covered, afterWrites_concat]
    change s'.bits cell = _
    rw [applied.bits cell inside, Write.apply, Write.apply, before.bits cell inside]
  · intro pat member
    exact before.patterned pat (applied.patterns ▸ member)
  · apply pairwise_append.2
    refine ⟨before.ordered.filter _, pairwise_singleton _ _, ?_⟩
    intro old member later single first
    obtain rfl := mem_singleton.1 single
    apply applied.fits
    rw [applied.allocated, (before.allocated old (kept member) first).2, Bool.true_or]
  · intro old member first
    have allocated : s'.allowedFirstargs.isSome = true := by
      rcases mem_append.1 member with earlier | single
      · rw [applied.allocated, (before.allocated old (kept earlier) first).2, Bool.true_or]
      · obtain rfl := mem_singleton.1 single
        rw [applied.allocated, first, Bool.or_true]
    refine ⟨?_, allocated⟩
    rcases mem_append.1 member with earlier | single
    · exact (before.allocated old (kept earlier) first).1
    · obtain rfl := mem_singleton.1 single
      exact applied.fits allocated

/-- An accepted modifier keeps the retained rules in step with the bitmap. -/
theorem describable_set {rules : List (Retained table)} {op : Sds} (plain : PlainRule op)
    (before : Describable table s base rules) (set : aclSetSelector table s op = .ok (.ok s')) :
    ∃ base' rules', Describable table s' base' rules' := by
  cases read : ruleOf table op with
  | none =>
    have same := (aclSetSelector_other s read).of_ok set s' rfl
    refine ⟨base, rules, same.commandRules.trans before.text, ?_, same.patterned before.patterned, before.ordered, ?_⟩
    · rw [AclSelector.bits, same.allowedCommands]
      exact before.bits
    · rw [same.allowedFirstargs]
      exact before.allocated
  | some rule =>
    rw [aclSetSelector_rule s read] at set
    obtain ⟨applied, returned, result⟩ := exists_of_bind_eq_ok set
    cases result
    by_cases all : ∃ allow, rule = .all allow
    · obtain ⟨allow, rfl⟩ := all
      cases returned
      exact ⟨allow, [], describable_all s allow before.patterned⟩
    · have named : ∀ allow, rule ≠ .all allow := fun allow same => all ⟨allow, same⟩
      obtain ⟨retained, same, text, sign⟩ := exists_retained plain read named
      have effect := applied_of_ok named returned
      have lowered : Applied table retained.rule s applied := by
        rw [same]
        exact ⟨by simpa only [write_lowered] using effect.bits, effect.patterns,
          by simpa only [isFirstArg_lowered] using effect.allocated, by simpa only [fits_lowered] using effect.fits⟩
      have retain : rule.retain op s.commandRules =
          rulesText (rules.filter (Retained.keeps retained.text) ++ [retained]) := by
        rw [← retainRule_rulesText rules text.symm sign, ← before.text]
        cases rule with
        | all allow => exact absurd rfl (named allow)
        | _ => rfl
      rw [retain]
      exact ⟨base, _, describable_rule before lowered⟩

theorem Retained.replayed (retained : Retained table) :
    ∃ rule, ruleOf table (retained.op ++ [0]) = some rule ∧ rule.lowered = retained.rule := by
  have cut : Aof.cString (retained.text ++ [0]) = retained.text := by
    rw [Aof.cString, takeWhile_append_of_pos, takeWhile_cons_of_neg (by decide), append_nil]
    exact fun char member => by simpa using (retained.plain char member).1
  apply Option.map_eq_some_iff.1
  rw [Retained.op, cons_append, ← ruleOf_lower retained.sign _ retained.signed, cut, retained.lower, retained.read]

/-- The retained rules are accepted again and have the same effect. -/
theorem replayRules_spec (rules : List (Retained table)) (fake : AclSelector)
    (ordered : rules.Pairwise fun first later => first.rule.isFirstArg = true → later.rule.Fits table)
    (own : ∀ retained ∈ rules, retained.rule.isFirstArg = true → retained.rule.Fits table)
    (needs : fake.allowedFirstargs.isSome = true → ∀ retained ∈ rules, retained.rule.Fits table) :
    ∃ fake', replayRules table fake (rules.map (·.op)) = .ok fake' ∧
      ∀ cell < userCommandBitsCount, fake'.bits cell = afterWrites (rules.map (·.rule.write table)) fake.bits cell := by
  induction rules generalizing fake with
  | nil => exact ⟨fake, rfl, fun _ _ => rfl⟩
  | cons retained rules ih =>
    obtain ⟨rule, read, lowered⟩ := retained.replayed
    obtain ⟨first, later⟩ := pairwise_cons.1 ordered
    have named : ∀ allow, rule ≠ .all allow := by
      rintro allow rfl
      exact retained.named allow lowered.symm
    have fits : fake.allowedFirstargs.isSome = true ∨ rule.isFirstArg = true → rule.Fits table := by
      rw [← isFirstArg_lowered, ← fits_lowered, lowered]
      rintro (allocated | firstArg)
      · exact needs allocated retained mem_cons_self
      · exact own retained mem_cons_self firstArg
    obtain ⟨applied, returned⟩ := apply_returns fits
    have effect := applied_of_ok named returned
    have more : applied.allowedFirstargs.isSome = true → ∀ other ∈ rules, other.rule.Fits table := by
      rw [effect.allocated, ← isFirstArg_lowered, lowered, Bool.or_eq_true]
      rintro (allocated | firstArg) other member
      · exact needs allocated other (mem_cons_of_mem _ member)
      · exact first other member firstArg
    obtain ⟨fake', replayed, bits⟩ := ih { applied with commandRules := rule.retain (retained.op ++ [0]) fake.commandRules }
      later (forall_mem_cons.mp own).2 more
    refine ⟨fake', ?_, fun cell inside => ?_⟩
    · rw [map_cons, replayRules, foldlM_cons, aclSetSelector_rule fake read, returned]
      exact replayed
    · rw [bits cell inside, map_cons, ← lowered, write_lowered]
      exact afterWrites_congr _ (effect.bits cell inside)

theorem reserved_notMem_touched (known : cmd ∈ table.commands) : userCommandBitsCount - 1 ∉ cmd.touched := by
  intro touched
  rcases mem_cons.1 touched with same | inside
  · exact id_ne_reserved known same.symm
  · obtain ⟨sub, listed, same⟩ := mem_map.1 inside
    obtain ⟨entry, row, rfl | ⟨other, -, rfl⟩⟩ := mem_commands.1 known
    · exact id_ne_reserved (mem_commands.2 ⟨entry, row, .inr ⟨sub, listed, rfl⟩⟩) same
    · cases listed

theorem afterWrites_reserved (rules : List (Retained table)) (state : Nat → Bool) :
    afterWrites (rules.map (·.rule.write table)) state (userCommandBitsCount - 1) = state (userCommandBitsCount - 1) := by
  induction rules using List.reverseRecOn with
  | nil => rfl
  | append_singleton rules retained ih =>
    have free : userCommandBitsCount - 1 ∉ retained.rule.touched table := by
      intro touched
      obtain ⟨cmd, member, inside⟩ : ∃ cmd ∈ retained.rule.commands table, userCommandBitsCount - 1 ∈ cmd.touched := by
        revert touched
        cases retained.rule <;> simp [CommandRule.touched, CommandRule.commands]
      exact reserved_notMem_touched ((ruleOf_known retained.read).1 cmd member) inside
    rw [map_append, map_singleton, afterWrites_concat, Write.apply, ih]
    simp [CommandRule.write, free]

theorem mapM_returns {A B : Type} {f : A → Checked B} {items : List A} (returns : ∀ item ∈ items, ∃ value, f item = .ok value) :
    ∃ values, items.mapM f = .ok values := by
  induction items with
  | nil => exact ⟨[], rfl⟩
  | cons item items ih =>
    obtain ⟨value, first⟩ := returns item mem_cons_self
    obtain ⟨values, rest⟩ := ih (forall_mem_cons.mp returns).2
    rw [mapM_cons, first, rest]
    exact ⟨value :: values, rfl⟩

theorem aclDescribeSelector_returns {config : AclConfig} {rules : List (Retained config.table)}
    (describable : Describable config.table s base rules) : ∃ text, aclDescribeSelector config s = .ok text := by
  have patterns : ∃ texts, s.patterns.mapM sdsCatPatternString = .ok texts := by
    apply mapM_returns
    intro pat member
    have permission := describable.patterned pat member
    unfold sdsCatPatternString
    split_ifs
    · exact ⟨_, rfl⟩
    · exact ⟨_, rfl⟩
    · exact ⟨_, rfl⟩
    · tauto
  have reserved : aclSelectorCanExecuteFutureCommands s = base := by
    have bit := describable.bits (userCommandBitsCount - 1) (by decide)
    rw [afterWrites_reserved] at bit
    exact bit
  obtain ⟨fake, replayed, bits⟩ := replayRules_spec rules (changeAllCommands (aclCreateSelector config.aclPubsubDefault) base)
    describable.ordered (fun retained member first => (describable.allocated retained member first).1)
    (fun allocated => by cases allocated)
  have same : fake.allowedCommands = s.allowedCommands := by
    apply BitVec.eq_of_getLsbD_eq
    intro cell inside
    have start : Describable config.table (changeAllCommands (aclCreateSelector config.aclPubsubDefault) base) base [] :=
      describable_all _ base fun _ member => absurd member not_mem_nil
    change fake.bits cell = s.bits cell
    rw [bits cell inside, describable.bits cell inside]
    exact afterWrites_congr _ (start.bits cell inside)
  obtain ⟨texts, printed⟩ := patterns
  have described : ∃ text, aclDescribeSelectorCommandRules config s = .ok text := by
    simp only [aclDescribeSelectorCommandRules, reserved, describable.text, sdssplitargs_rulesText, replayed, ok_bind]
    rw [require_of same]
    exact ⟨_, rfl⟩
  obtain ⟨text, described⟩ := described
  unfold aclDescribeSelector
  by_cases keys : s.allkeys = true
  · rw [if_pos keys, described]
    exact ⟨_, rfl⟩
  · rw [if_neg keys, printed, described]
    exact ⟨_, rfl⟩
end Invariant

section Users
variable {config : AclConfig} {u u' : User} {op : Sds}

/-- The command rules that a modifier consists of: those in its parentheses, or the modifier itself. -/
def tokensOf (op : Sds) : List Sds :=
  if op.head? = some 40 ∧ op.getLast? = some 41 then (SplitArgs.sdssplitargs ((op.drop 1).dropLast)).getD [] else [op]

def PlainModifier (op : Sds) : Prop := ∀ token ∈ tokensOf op, PlainRule token

instance (op : Sds) : Decidable (PlainModifier op) := inferInstanceAs (Decidable (∀ token ∈ _, _))

def DescribableUser (config : AclConfig) (u : User) : Prop :=
  ∀ s ∈ u.allSelectors, ∃ base rules, Describable config.table s base rules

theorem describable_create (config : AclConfig) (aclPubsubDefault : Bool) :
    Describable config.table (aclCreateSelector aclPubsubDefault) false [] :=
  describable_all (aclCreateSelector aclPubsubDefault) false fun _ member => absurd member not_mem_nil

theorem describable_opSet {ops : List Sds} {s s' : AclSelector} (plain : ∀ op ∈ ops, PlainRule op)
    (before : ∃ base rules, Describable config.table s base rules) (set : applyOpSet config.table s ops = .ok (.ok s')) :
    ∃ base rules, Describable config.table s' base rules := by
  induction ops generalizing s with
  | nil =>
    cases set
    exact before
  | cons op ops ih =>
    obtain ⟨result, first, rest⟩ := exists_of_bind_eq_ok set
    cases result with
    | error errno => cases rest
    | ok middle =>
      obtain ⟨base, rules, describable⟩ := before
      have after := describable_set (plain op mem_cons_self) describable first
      exact ih (forall_mem_cons.mp plain).2 after rest

theorem describable_setUser (plain : PlainModifier op) (before : DescribableUser config u)
    (set : aclSetUser config u op = .ok (.ok u')) : DescribableUser config u' := by
  unfold aclSetUser at set
  dsimp only at set
  split_ifs at set with empty reset
  · cases set
    exact before
  · rw [reset_eq] at set
    cases set
    intro s member
    obtain rfl := mem_singleton.1 member
    obtain ⟨text, bits, -, ordered, allocated⟩ := describable_create config config.aclPubsubDefault
    exact ⟨false, [], text, bits, forall_mem_nil _, ordered, allocated⟩
  · have root := before u.root mem_cons_self
    have selectors : ∀ s ∈ u.selectors, ∃ base rules, Describable config.table s base rules :=
      (forall_mem_cons.mp before).2
    have assemble : ∀ {v : User}, (∃ base rules, Describable config.table v.root base rules) →
        (∀ s ∈ v.selectors, ∃ base rules, Describable config.table s base rules) → DescribableUser config v :=
      fun root selectors => forall_mem_cons.2 ⟨root, selectors⟩
    unfold PlainModifier tokensOf at plain
    obtain ⟨-, ⟨same, rest⟩ | ⟨selector, marked, created, same, rest⟩ | ⟨same, rest⟩ | ⟨root', changed, same, rest⟩⟩ :=
      setUserWord_cases set
    · exact assemble (same ▸ root) (rest ▸ selectors)
    · apply assemble (same ▸ root)
      rw [if_pos marked] at plain
      have new := describable_opSet plain ⟨false, [], describable_create config _⟩ created
      intro s member
      rcases mem_append.1 (rest ▸ member) with old | single
      · exact selectors s old
      · exact mem_singleton.1 single ▸ new
    · exact assemble (same ▸ root) (by simp [rest])
    · obtain ⟨base, rules, describable⟩ := root
      have single : PlainRule op := by
        split_ifs at plain with marked
        · intro signed
          rw [marked.1] at signed
          simp at signed
        · exact plain op (mem_singleton_self op)
      exact assemble (same ▸ describable_set single describable changed) (rest ▸ selectors)

theorem aclDescribeUser_returns (describable : DescribableUser config u) : ∃ result, aclDescribeUser config u = .ok result := by
  have returns : ∀ s ∈ u.allSelectors, ∃ text, aclDescribeSelector config s = .ok text := by
    intro s member
    obtain ⟨base, rules, fine⟩ := describable s member
    exact aclDescribeSelector_returns fine
  unfold aclDescribeUser
  cases u.aclString with
  | some text => exact ⟨_, rfl⟩
  | none =>
    obtain ⟨root, first⟩ := returns u.root mem_cons_self
    obtain ⟨texts, rest⟩ := mapM_returns (forall_mem_cons.mp returns).2
    rw [first, rest]
    exact ⟨_, rfl⟩

/-- After every accepted sequence of modifiers whose command rules have plain characters behind their signs, the user is
described without an assertion. -/
theorem described_without_abort (config : AclConfig) (u : User) (ops : List Sds)
    (created : (∃ name, u = newUser config name) ∨ u = aclCreateDefaultUser config) (plain : ∀ op ∈ ops, PlainModifier op) :
    Outcome (applyModifiers config u ops) (fun _ => True) fun result =>
      ∀ u', result = .ok u' → ∃ described, aclDescribeUser config u' = .ok described := by
  have start : DescribableUser config u := by
    intro s member
    rcases created with ⟨name, rfl⟩ | rfl
    · obtain rfl := mem_singleton.1 member
      exact ⟨false, [], describable_create config _⟩
    · obtain rfl := mem_singleton.1 member
      have all : Describable config.table (changeAllCommands (aclCreateSelector config.aclPubsubDefault) true) true [] :=
        describable_all _ true fun _ member => absurd member not_mem_nil
      exact ⟨true, [], all.text, all.bits, all.patterned, all.ordered, all.allocated⟩
  clear created
  induction ops generalizing u with
  | nil =>
    rintro u' same
    cases same
    exact aclDescribeUser_returns start
  | cons op ops ih =>
    unfold applyModifiers
    cases set : aclSetUser config u op with
    | error fault => trivial
    | ok result =>
      cases result with
      | error errno =>
        intro u' accepted
        cases accepted
      | ok next =>
        have after := describable_setUser (plain op mem_cons_self) start set
        exact ih next (forall_mem_cons.mp plain).2 after

theorem described_without_abort_sample :
    Outcome (applyModifiers sampleConfig (newUser sampleConfig (ascii "bob")) [ascii "+@read", ascii "(-GET +get|a)"])
      (fun _ => True) fun result => ∀ u', result = .ok u' → ∃ described, aclDescribeUser sampleConfig u' = .ok described :=
  described_without_abort sampleConfig _ _ (.inl ⟨_, rfl⟩) (by decide +kernel)

/-- The quote of the first argument is retained as it is, and the rules cannot be split. -/
theorem description_aborts : Outcome (do
        match ← applyModifiers sampleConfig (newUser sampleConfig (ascii "bob")) [ascii "+get|\""] with
        | .ok u => return (some (← aclDescribeUser sampleConfig u).2)
        | .error _ => return none)
      (fun fault => fault = .assertion .aclDescribeSelectorCommandRules) fun _ => False := by
  decide +kernel
end Users
end Redis.Acl

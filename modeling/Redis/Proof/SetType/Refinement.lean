import Redis.Proof.SetType.Operations

namespace Redis.SetType
open Foundation Redis.Dictionary Redis.IntegerSet Redis.Listpack
variable {setDictType : DictType Sds} {server : Server} {set : SetObject} {members : Finset Sds}

/-- The operations on one set. -/
inductive SetOp where
  | add (value : SetValue)
  | remove (value : SetValue)
  | isMember (value : SetValue)
  | popRandom (choice : RandomChoice)
  | size
  | maybeConvert (sizeHint : Nat)
  | maybeConvertToIntset

inductive SetReply where
  | status (result : Bool)
  | popped (obj : Sds)
  | size (count : Nat)
  | done
  deriving DecidableEq, Repr

/-- Each operation runs with the configuration of its moment. -/
def setTypeStep (setDictType : DictType Sds) (set : SetObject) : Server × SetOp → Checked (SetObject × SetReply)
  | (server, .add value) => do
      let (set, added) ← setTypeAddAux setDictType server set value
      return (set, .status added)
  | (server, .remove value) => do
      let (set, removed) ← setTypeRemoveAux setDictType server set value
      return (set, .status removed)
  | (server, .isMember value) => do
      let (set, found) ← setTypeIsMemberAux setDictType server set value
      return (set, .status found)
  | (server, .popRandom choice) => do
      let (set, obj) ← setTypePopRandom setDictType server set choice
      return (set, .popped obj)
  | (_, .size) => do
      let (size, set) ← setTypeSize set
      return (set, .size size)
  | (server, .maybeConvert sizeHint) => do
      return (← setTypeMaybeConvert setDictType server set sizeHint, .done)
  | (server, .maybeConvertToIntset) => do
      return (← maybeConvertToIntset server set, .done)

/-- The operations on a mathematical set. A pop can take any member. -/
def MemberStep (members : Finset Sds) : Server × SetOp → Finset Sds × SetReply → Prop
  | (_, .add value), result => result = (insert value.text members, .status (decide (value.text ∉ members)))
  | (_, .remove value), result => result = (members.erase value.text, .status (decide (value.text ∈ members)))
  | (_, .isMember value), result => result = (members, .status (decide (value.text ∈ members)))
  | (_, .popRandom _), result => ∃ obj ∈ members, result = (members.erase obj, .popped obj)
  | (_, .size), result => result = (members, .size members.card)
  | (_, .maybeConvert _), result => result = (members, .done)
  | (_, .maybeConvertToIntset), result => result = (members, .done)

def listing (set : SetObject) : List Sds :=
  match SetType.members set with
  | .ok strings => strings
  | .error _ => []

/-- Sizes are in the range of the C types, a pop has a member to take, and a set that is converted to an
intset has only integers. -/
def StepFits (set : SetObject) : Server × SetOp → Prop
  | (_, .add value) => ValueFits set value .add
  | (_, .remove value) => ValueFits set value .remove
  | (_, .isMember value) => ValueFits set value .find
  | (_, .popRandom choice) => listing set ≠ [] ∧ PopFits set choice
  | (_, .size) => True
  | (_, .maybeConvert _) => True
  | (server, .maybeConvertToIntset) => (∀ s ∈ listing set, (string2ll s).isSome) ∧
      ((listing set).length < 2 ^ 29 ∨ intsetMaxEntries server < (listing set).length)

instance (set : SetObject) (op : Server × SetOp) : Decidable (StepFits set op) := by
  unfold StepFits
  split <;> infer_instance

theorem SetModels.enumerates (models : SetModels setDictType members set) :
    SetType.members set = .ok (listing set) ∧ (listing set).Nodup ∧ (listing set).toFinset = members := by
  obtain ⟨strings, lists, distinct, same⟩ := models.listed
  have ran := lists.members
  have collected : listing set = strings := by rw [listing, ran]
  rw [collected]
  exact ⟨ran, distinct, same⟩

theorem setTypeStep_refines (op : Server × SetOp) (models : SetModels setDictType members set)
    (fits : StepFits set op) :
    Outcome (setTypeStep setDictType set op) (· = .outOfMemory) fun result =>
      ∃ next, MemberStep members op (next, result.2) ∧ SetModels setDictType next result.1 := by
  obtain ⟨ran, distinct, same⟩ := models.enumerates
  obtain ⟨server, op⟩ := op
  cases op with
  | add value =>
    refine (setTypeAddAux_spec models fits).bind fun ⟨set', added⟩ ⟨status, models'⟩ => ?_
    obtain rfl := status
    exact ⟨_, rfl, models'⟩
  | remove value =>
    obtain ⟨set', removed, models'⟩ := setTypeRemoveAux_spec server models fits
    rw [setTypeStep, removed]
    exact ⟨_, rfl, models'⟩
  | isMember value =>
    obtain ⟨set', found, models'⟩ := setTypeIsMemberAux_spec server models fits
    rw [setTypeStep, found]
    exact ⟨_, rfl, models'⟩
  | popRandom choice =>
    have inhabited : members.Nonempty := by
      rw [← same, List.toFinset_nonempty_iff]
      exact fits.1
    obtain ⟨set', obj, popped, member, models'⟩ := setTypePopRandom_spec models server inhabited choice fits.2
    rw [setTypeStep, popped]
    exact ⟨_, ⟨obj, member, rfl⟩, models'⟩
  | size =>
    obtain ⟨set', measured, models'⟩ := setTypeSize_spec models
    rw [setTypeStep, measured]
    exact ⟨_, rfl, models'⟩
  | maybeConvert sizeHint =>
    refine (setTypeMaybeConvert_spec models sizeHint).bind fun set' models' => ?_
    exact ⟨_, rfl, models'⟩
  | maybeConvertToIntset =>
    have card : members.card = (listing set).length := by
      rw [← same, List.toFinset_card_of_nodup distinct]
    obtain ⟨set', converted, models'⟩ := maybeConvertToIntset_spec models server
      (fun s member => fits.1 s (List.mem_toFinset.mp (same ▸ member))) (card ▸ fits.2)
    rw [setTypeStep, converted]
    exact ⟨_, rfl, models'⟩

theorem run_models (ops : List (Server × SetOp)) (models : SetModels setDictType members set)
    (guarded : Guarded (setTypeStep setDictType) StepFits set ops) :
    Outcome (run (setTypeStep setDictType) set ops) (· = .outOfMemory) fun result =>
      ∃ final, SpecRuns MemberStep members ops (final, result.2) ∧ SetModels setDictType final result.1 :=
  run_refines_choice (fun set members => SetModels setDictType members set)
    (fun _ _ op models fits => setTypeStep_refines op models fits) ops set members models guarded

/-- Every run answers as a mathematical set, and the iteration at its end gives every member once. Only memory
can stop it. -/
theorem set_type_refines_finset (setDictType : DictType Sds) (created : Server) (value : Sds) (sizeHint : Nat)
    (ops : List (Server × SetOp))
    (guarded : Guarded (setTypeStep setDictType) StepFits (setTypeCreate created value sizeHint) ops) :
    (∀ fault, run (setTypeStep setDictType) (setTypeCreate created value sizeHint) ops = .error fault →
      fault = .outOfMemory) ∧
    ∀ set replies, run (setTypeStep setDictType) (setTypeCreate created value sizeHint) ops = .ok (set, replies) →
      ∃ members, SpecRuns MemberStep ∅ ops (members, replies) ∧ (∃ set', setTypeSize set = .ok (members.card, set')) ∧
        ∃ strings, SetType.members set = .ok strings ∧ strings.Nodup ∧ strings.toFinset = members := by
  have outcome := run_models ops (setTypeCreate_models created value sizeHint) guarded
  refine ⟨fun fault stopped => outcome.of_error stopped, fun set replies ran => ?_⟩
  obtain ⟨members, runs, models⟩ := outcome.of_ok ran
  obtain ⟨set', measured, _⟩ := setTypeSize_spec models
  exact ⟨members, runs, ⟨set', measured⟩, _, models.enumerates⟩

/-- Two integers, a string that makes the set a listpack, and a string that makes it a hash table. -/
def sampleOps : List (Server × SetOp) :=
  [SetOp.add (.integer 5), .add (.buffer [45, 55]), .add (.sds [97]), .remove (.sds [53]), .add (.sds [98]),
    .isMember (.integer 5), .add (.integer 9), .popRandom ⟨fun _ => 0, false, 2⟩, .size].map
      fun op => (⟨512, 3, 64, .enable⟩, op)

theorem set_type_refines_finset_sample :
    ∃ result, run (setTypeStep ⟨fun s => .ofNat _ s.length, none⟩) (setTypeCreate ⟨512, 3, 64, .enable⟩ [53] 1)
        sampleOps = .ok result ∧
      ∃ members, SpecRuns MemberStep ∅ sampleOps (members, result.2) := by
  obtain ⟨_, answers⟩ := set_type_refines_finset ⟨fun s => .ofNat _ s.length, none⟩ ⟨512, 3, 64, .enable⟩ [53] 1
    sampleOps (by decide +kernel)
  have returns : (run (setTypeStep ⟨fun s => .ofNat _ s.length, none⟩) (setTypeCreate ⟨512, 3, 64, .enable⟩ [53] 1)
      sampleOps).isOk = true := by decide +kernel
  cases ran : run (setTypeStep ⟨fun s => .ofNat _ s.length, none⟩) (setTypeCreate ⟨512, 3, 64, .enable⟩ [53] 1)
      sampleOps with
  | error fault =>
    rw [ran] at returns
    cases returns
  | ok result =>
    obtain ⟨members, runs, _⟩ := answers result.1 result.2 ran
    exact ⟨result, rfl, members, runs⟩

/-- A configuration with the largest intsets. -/
def largeIntsets : Server := ⟨2 ^ 30, 128, 64, .enable⟩

def addInteger (value : Int) : Server × SetOp := (largeIntsets, .add (.integer (Int64.ofInt value)))

theorem addInteger_step {is next : Intset} {value : Int} (lower : -2 ^ 63 ≤ value) (upper : value < 2 ^ 63)
    (added : intsetAdd is value = .ok (next, true)) (few : next.length ≤ 2 ^ 30) :
    setTypeStep setDictType (.intset is) (addInteger value) = .ok (.intset next, .status true) := by
  have kept : maybeConvertIntset setDictType largeIntsets next = .ok (.intset next) := by
    rw [maybeConvertIntset, show intsetMaxEntries largeIntsets = 2 ^ 30 from rfl, if_neg (by omega)]
  rw [addInteger, setTypeStep, setTypeAddAux]
  dsimp only [SetValue.llval]
  rw [Int64.toInt_ofInt_of_le lower upper, addToIntset, added, ok_bind]
  dsimp only
  rw [kept]
  rfl

theorem run_addInteger (setDictType : DictType Sds) (count : Nat) (small : count + 1 ≤ 2 ^ 30) :
    ∃ is replies, run (setTypeStep setDictType) createIntsetObject ((ascending (count + 1)).map addInteger) =
        .ok (.intset is, replies) ∧ is.encoding = .int64 ∧ Stores is (ascending (count + 1)) := by
  induction count with
  | zero =>
    refine ⟨⟨.int64, 1, cells .int64 [2 ^ 31]⟩, [.status true], ?_, rfl, rfl, rfl, by decide⟩
    rfl
  | succ count ih =>
    obtain ⟨is, replies, ran, encoding, stores⟩ := ih (by omega)
    obtain ⟨next, added, encoding', stores'⟩ := intsetAdd_ascending (by omega) encoding stores
    have length := stores'.length
    rw [ascending, List.length_map, List.length_range] at length
    have stepped : setTypeStep setDictType (.intset is) (addInteger (2 ^ 31 + ((count + 1 : Nat) : Int))) = _ :=
      addInteger_step (by omega) (by omega) added (by omega)
    refine ⟨next, replies ++ [.status true], ?_, encoding', stores'⟩
    rw [ascending_succ, List.map_append]
    refine run_append ran ?_
    rw [List.map_singleton, run, stepped]
    rfl

theorem subset_of_addInteger {final : Finset Sds} {replies : List SetReply} {values : List Int}
    (runs : SpecRuns MemberStep members (values.map addInteger) (final, replies)) : members ⊆ final := by
  induction values generalizing members replies with
  | nil =>
    cases runs
    exact Finset.Subset.refl _
  | cons value rest ih =>
    obtain ⟨next, out, final', outs, stepped, runs', same⟩ := runs
    cases same
    cases stepped
    exact (Finset.subset_insert _ _).trans (ih runs')

theorem mem_of_addInteger {count : Nat} {final : Finset Sds} {replies : List SetReply}
    (runs : SpecRuns MemberStep ∅ ((ascending (count + 1)).map addInteger) (final, replies)) :
    (SetValue.integer (Int64.ofInt (2 ^ 31))).text ∈ final := by
  rw [ascending, List.range_succ_eq_map] at runs
  obtain ⟨next, out, final', outs, stepped, runs', same⟩ := runs
  cases same
  cases stepped
  exact subset_of_addInteger runs' (Finset.mem_insert_self _ _)

/-- When the bytes of the members are a multiple of `2 ^ 32`, a smaller integer erases the smallest one. -/
theorem smallest_integer_lost (setDictType : DictType Sds) {count : Nat} (positive : 0 < count) (small : count < 2 ^ 30)
    (wraps : count * 8 % 2 ^ 32 = 0) :
    ∃ set replies, run (setTypeStep setDictType) createIntsetObject ((ascending count).map addInteger ++
        [addInteger (2 ^ 31 - 1), (largeIntsets, .isMember (.integer (Int64.ofInt (2 ^ 31))))]) = .ok (set, replies) ∧
      ¬ ∃ members, SpecRuns MemberStep ∅ ((ascending count).map addInteger ++
        [addInteger (2 ^ 31 - 1), (largeIntsets, .isMember (.integer (Int64.ofInt (2 ^ 31))))]) (members, replies) := by
  obtain ⟨last, rfl⟩ := Nat.exists_eq_succ_of_ne_zero positive.ne'
  obtain ⟨is, replies, ran, encoding, stores⟩ := run_addInteger setDictType last small.le
  obtain ⟨next, added, missed, length⟩ := intsetAdd_smallest positive (by omega) wraps encoding stores
  have stepped : setTypeStep setDictType (.intset is) (addInteger (2 ^ 31 - 1)) = _ :=
    addInteger_step (by decide) (by decide) added (by omega)
  have first : (Int64.ofInt (2 ^ 31)).toInt = 2 ^ 31 := by decide
  refine ⟨.intset next, replies ++ [.status true, .status false], run_append ran ?_, ?_⟩
  · rw [run, stepped, ok_bind]
    dsimp only
    rw [run, setTypeStep, setTypeIsMemberAux]
    dsimp only [SetValue.llval]
    rw [first, missed]
    rfl
  · rintro ⟨final, runs⟩
    obtain ⟨middle, before, after, adds, searches, replied⟩ := runs.split
    have member := mem_of_addInteger adds
    obtain ⟨next', out, _, _, inserted, ⟨_, found, _, _, searched, ended, replied'⟩, replied''⟩ := searches
    cases inserted
    cases searched
    cases ended
    cases replied'
    cases replied''
    obtain ⟨_, tails⟩ := List.append_inj' replied rfl
    rw [decide_eq_true (Finset.mem_insert_of_mem member)] at tails
    simp at tails

/-- The first such count is `2 ^ 29`. -/
theorem set_type_loses_member :
    ∃ set replies, run (setTypeStep ⟨fun _ => 0, none⟩) (setTypeCreate largeIntsets (signedDecimal (2 ^ 31)) 1)
        ((ascending (2 ^ 29)).map addInteger ++
          [addInteger (2 ^ 31 - 1), (largeIntsets, .isMember (.integer (Int64.ofInt (2 ^ 31))))]) = .ok (set, replies) ∧
      ¬ ∃ members, SpecRuns MemberStep ∅ ((ascending (2 ^ 29)).map addInteger ++
        [addInteger (2 ^ 31 - 1), (largeIntsets, .isMember (.integer (Int64.ofInt (2 ^ 31))))]) (members, replies) := by
  have created : setTypeCreate largeIntsets (signedDecimal (2 ^ 31)) 1 = createIntsetObject := by
    have parsed := string2ll_eq_some_iff.mpr ⟨rfl, (by decide : -2 ^ 63 ≤ (2 ^ 31 : Int)), by decide⟩
    rw [setTypeCreate, parsed, if_pos ⟨rfl, by decide⟩]
  rw [created]
  exact smallest_integer_lost _ (by decide) (by decide) (by decide)

end Redis.SetType

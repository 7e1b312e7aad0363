import Redis.Proof.SetType.Conversion

namespace Redis.SetType
open Foundation Redis.Dictionary Redis.IntegerSet Redis.Listpack List
variable {setDictType : DictType Sds} {server : Server} {set : SetObject} {s : Sds} {is : Intset} {lp : Memory}
  {capacity : Nat} {elements : List Sds} {ints : Finset Int} {members : Finset Sds} {value : SetValue}

/-- The string that a value argument stands for. -/
def SetValue.text : SetValue → Sds
  | .sds s => s
  | .buffer s => s
  | .integer llval => signedDecimal llval.toInt

theorem SetValue.str_eq (value : SetValue) : value.str = .ok value.text := by
  cases value with
  | sds s => rfl
  | buffer s => rfl
  | integer llval => exact ll2string_eq (int64_range llval).1 (by have := (int64_range llval).2; omega)

theorem toInt_of_string2ll {v : Int} (parsed : string2ll s = some v) : (Int64.ofInt v).toInt = v := by
  obtain ⟨_, lower, upper⟩ := string2ll_eq_some_iff.mp parsed
  exact Int64.toInt_ofInt_of_le lower upper

theorem SetValue.text_of_llval {v : Int64} (found : value.llval = some v) : value.text = signedDecimal v.toInt := by
  have parse {s : Sds} (found : (string2ll s).map Int64.ofInt = some v) : s = signedDecimal v.toInt := by
    obtain ⟨w, parsed, rfl⟩ := Option.map_eq_some_iff.mp found
    rw [toInt_of_string2ll parsed]
    exact (string2ll_eq_some_iff.mp parsed).1
  cases value with
  | sds s => exact parse found
  | buffer s => exact parse found
  | integer llval => rw [← Option.some.inj found]; rfl

theorem SetValue.string2ll_of_llval (missing : value.llval = none) : string2ll value.text = none := by
  cases value with
  | sds s => exact Option.map_eq_none_iff.mp missing
  | buffer s => exact Option.map_eq_none_iff.mp missing
  | integer llval => cases missing

/-- An operation on an intset moves fewer than `2 ^ 32` bytes, and the length of a string that is searched
in a listpack fits in a `uint32_t`. -/
def ValueFits (set : SetObject) (value : SetValue) (op : Int64 → IntsetOp) : Prop :=
  match set with
  | .intset is =>
    match value.llval with
    | some v => tailBytes is (op v) < 2 ^ 32
    | none => True
  | .listpack _ => value.text.length < 2 ^ 32
  | .ht _ => True

instance (set : SetObject) (value : SetValue) (op : Int64 → IntsetOp) : Decidable (ValueFits set value op) := by
  unfold ValueFits
  split
  · split <;> infer_instance
  · infer_instance
  · infer_instance

theorem ValueFits.tail {op : Int64 → IntsetOp} {v : Int64} (fits : ValueFits (.intset is) value op)
    (found : value.llval = some v) : tailBytes is (op v) < 2 ^ 32 := by
  rwa [ValueFits, found] at fits

theorem findStride_zero (s : Sds) (elements : List Sds) : (s ∉ elements ∧ findStride s 0 0 elements = none) ∨
      ∃ front back, elements = front ++ s :: back ∧ findStride s 0 0 elements = some front.length := by
  induction elements with
  | nil => exact .inl ⟨by simp, rfl⟩
  | cons x rest ih =>
    rw [findStride]
    by_cases same : x = s
    · subst same
      exact .inr ⟨[], rest, rfl, by rw [if_pos rfl]; rfl⟩
    · rw [if_neg same]
      rcases ih with ⟨absent, none⟩ | ⟨front, back, rfl, found⟩
      · refine .inl ⟨?_, by rw [none]; rfl⟩
        rw [mem_cons, not_or]
        exact ⟨fun equal => same equal.symm, absent⟩
      · exact .inr ⟨x :: front, back, rfl, by rw [found]; rfl⟩

theorem findInListpack_spec (holds : Holds capacity lp elements) (small : s.length < 2 ^ 32) :
    (s ∉ elements ∧ findInListpack lp s = .ok none) ∨
      ∃ front back, elements = front ++ s :: back ∧ findInListpack lp s = .ok (some (entryOffset front)) := by
  rw [findInListpack, holds.first]
  cases elements with
  | nil => exact .inl ⟨by simp, rfl⟩
  | cons x rest =>
    have found := holds.find small 0
    rcases findStride_zero s (x :: rest) with ⟨absent, none⟩ | ⟨front, back, split, position⟩
    · rw [none] at found
      exact .inl ⟨absent, found⟩
    · rw [position, split] at found
      refine .inr ⟨front, back, split, ?_⟩
      rwa [Option.bind_some, getElem?_entryOffsets] at found

theorem addToHt_spec (listed : Listed setDictType members set) (absent : s ∉ members) (cap : Nat) :
    Outcome (addToHt setDictType server set cap s) (· = .outOfMemory) fun result =>
      result.2 = true ∧ SetModels setDictType (insert s members) result.1 := by
  refine (convertToHt_spec listed cap).bind fun d ⟨map, models, keys⟩ => ?_
  refine (dictAdd_new models server.dictCanResize (keys ▸ absent) ()).bind fun ⟨d', added⟩ ⟨success, models'⟩ => ?_
  obtain rfl : added = true := success
  exact ⟨rfl, _, models', by rw [keys_insert, keys]⟩

theorem intsetMaxEntries_le (server : Server) : intsetMaxEntries server ≤ 2 ^ 30 := by
  rw [intsetMaxEntries]
  split <;> omega

theorem maybeConvertIntset_spec (models : IntegerSet.Models is ints) :
    Outcome (maybeConvertIntset setDictType server is) (· = .outOfMemory) fun set =>
      SetModels setDictType (ints.image signedDecimal) set := by
  have limit := intsetMaxEntries_le server
  rw [maybeConvertIntset]
  split
  · rw [setTypeConvert]
    refine (convertToHt_spec (listed_intset models) _).bind ?_
    rintro d ⟨map, models', keys⟩
    exact ⟨map, models', keys.symm⟩
  · exact ⟨ints, models, by omega, rfl⟩

theorem addToIntset_spec (models : SetModels setDictType members (.intset is)) (v : Int64)
    (fits : tailBytes is (.add v) < 2 ^ 32) :
    Outcome (addToIntset setDictType server is v.toInt) (· = .outOfMemory) fun result =>
      result.2 = decide (signedDecimal v.toInt ∉ members) ∧
        SetModels setDictType (insert (signedDecimal v.toInt) members) result.1 := by
  obtain ⟨ints, stored, bound, rfl⟩ := models
  obtain ⟨next, added, stored', _⟩ := intsetAdd_models stored ⟨by omega, fits⟩
  have same := mem_image_signedDecimal stored (int64_range v)
  rw [addToIntset, added]
  by_cases present : v.toInt ∈ ints
  · rw [decide_eq_false (not_not_intro present)]
    refine ⟨(decide_eq_false (not_not_intro (same.mpr present))).symm, ?_⟩
    rw [Finset.insert_eq_of_mem present] at stored'
    refine ⟨ints, stored', ?_, Finset.insert_eq_of_mem (same.mpr present)⟩
    rw [models_length stored', ← models_length stored]
    exact bound
  · rw [decide_eq_true present]
    refine (maybeConvertIntset_spec stored').bind fun set models' => ?_
    refine ⟨(decide_eq_true (mt same.mp present)).symm, ?_⟩
    rwa [Finset.image_insert] at models'

/-- The estimate before a conversion covers the listpack. -/
theorem listpackEstimate_spec {values : List Int} (stores : IntegerSet.Stores is values)
    (sorted : values.Pairwise (· < ·)) :
    ∃ maxelelen totsize, listpackEstimate is = .ok (maxelelen, totsize) ∧
      usedBytes (values.map signedDecimal) ≤ max totsize (lpHdrSize + 1) := by
  rw [listpackEstimate, stores.length]
  by_cases empty : values.length ≠ 0
  · have some : values ≠ [] := fun none => empty (by rw [none]; rfl)
    rw [if_pos empty, intsetMax_of stores some, intsetMin_of stores some]
    refine ⟨_, _, rfl, le_max_of_le_left ?_⟩
    exact usedBytes_estimate sorted (fun v member => inRange_of_holds (stores.holds v member)) some
  · rw [if_neg empty]
    obtain rfl : values = [] := length_eq_zero_iff.mp (not_not.mp empty)
    exact ⟨0, 0, rfl, le_rfl⟩

theorem models_append (holds : IsListpack lp (elements ++ [s])) (distinct : elements.Nodup) (absent : s ∉ elements.toFinset) :
    SetModels setDictType (insert s elements.toFinset) (.listpack lp) := by
  rw [mem_toFinset] at absent
  refine ⟨_, holds, ?_, ?_⟩
  · rw [nodup_append]
    refine ⟨distinct, by simp, fun a member b single equal => absent ?_⟩
    rwa [← mem_singleton.mp single, ← equal]
  · rw [toFinset_append, toFinset_cons, toFinset_nil, Finset.union_insert, Finset.union_empty]

theorem notMem_intset (models : SetModels setDictType members (.intset is)) (parsed : string2ll s = none) :
    s ∉ members := by
  obtain ⟨ints, stored, bound, rfl⟩ := models
  rw [Finset.mem_image]
  rintro ⟨v, member, rfl⟩
  rw [string2ll_eq_some_iff.mpr ⟨rfl, models_range stored member⟩] at parsed
  cases parsed

/-- A string that is not an integer moves an intset to another encoding. -/
theorem addStringToIntset_spec (models : SetModels setDictType members (.intset is)) (parsed : string2ll s = none) :
    Outcome (addStringToIntset setDictType server is s) (· = .outOfMemory) fun result =>
      result.2 = decide (s ∉ members) ∧ SetModels setDictType (insert s members) result.1 := by
  have absent := notMem_intset models parsed
  obtain ⟨ints, stored, bound, rfl⟩ := models
  have listed : Listed setDictType _ _ := listed_intset stored
  obtain ⟨values, stores, sorted, _, same⟩ := stored
  obtain ⟨distinct, listing⟩ := decimals_listed stores sorted same
  obtain ⟨maxelelen, totsize, estimated, covers⟩ := listpackEstimate_spec stores sorted
  rw [addStringToIntset, estimated, ok_bind, decide_eq_true absent]
  dsimp only
  rw [lpSafeToAdd_none, ok_bind]
  split
  · rename_i allowed
    have safe := of_decide_eq_true allowed.2.2.2
    have header : lpHdrSize = 6 := rfl
    have room : usedBytes (values.map signedDecimal ++ [s]) < 2 ^ 32 := by
      have entry := length_entryBytes_le s
      rw [usedBytes_append]
      simp only [listpackMaxSafetySize] at safe
      omega
    obtain ⟨lp, converted, holds⟩ := convertToListpack_spec
      (show Lists setDictType (values.map signedDecimal) (.intset is) from ⟨values, stores, rfl⟩)
      ((usedBytes_le_append _ [s]).trans_lt room) (is.length + 1)
    obtain ⟨lp', appended, capacity, holds'⟩ := append_spec holds room
    obtain ⟨lp'', shrunk, holds''⟩ := holds'.shrinkToFit
    rw [converted, ok_bind, appended, ok_bind, shrunk]
    rw [← listing] at absent ⊢
    exact ⟨rfl, models_append ⟨capacity, holds''⟩ distinct absent⟩
  · exact addToHt_spec listed absent _

/-- A new member is appended, or it moves the set to a hash table. -/
theorem appendToListpack_spec (holds : Holds capacity lp elements) (distinct : elements.Nodup)
    (absent : value.text ∉ elements.toFinset) :
    Outcome (appendToListpack setDictType server lp value value.text) (· = .outOfMemory) fun result =>
      result.2 = true ∧ SetModels setDictType (insert value.text elements.toFinset) result.1 := by
  obtain ⟨lp₁, measured, holds₁⟩ := holds.length
  obtain ⟨lp₂, measured', holds₂⟩ := holds₁.length
  rw [appendToListpack, measured, ok_bind]
  dsimp only
  rw [holds₁.safeToAdd, ok_bind]
  split
  · rename_i allowed
    have safe := of_decide_eq_true allowed.2.2
    have room : usedBytes (elements ++ [value.text]) < 2 ^ 32 := by
      have entry := length_entryBytes_le value.text
      rw [usedBytes_append]
      simp only [listpackMaxSafetySize] at safe
      omega
    obtain ⟨lp₃, appended, holds₃⟩ := append_spec ⟨capacity, holds₁⟩ room
    cases value with
    | sds s =>
      rw [show (SetValue.sds s).text = s from rfl] at appended
      dsimp only [SetValue.text]
      rw [appended]
      exact ⟨rfl, models_append holds₃ distinct absent⟩
    | buffer s =>
      rw [appended]
      exact ⟨rfl, models_append holds₃ distinct absent⟩
    | integer llval =>
      obtain ⟨lp₄, appended', holds₄⟩ := appendInteger_spec ⟨capacity, holds₁⟩ (int64_range llval) room
      dsimp only
      rw [appended']
      exact ⟨rfl, models_append holds₄ distinct absent⟩
  · rw [measured']
    exact addToHt_spec (show Listed setDictType elements.toFinset (.listpack lp₂) from
      ⟨elements, ⟨capacity, holds₂⟩, distinct, rfl⟩) absent _

theorem addToListpack_spec (models : SetModels setDictType members (.listpack lp)) (small : value.text.length < 2 ^ 32) :
    Outcome (addToListpack setDictType server lp value value.text) (· = .outOfMemory) fun result =>
      result.2 = decide (value.text ∉ members) ∧ SetModels setDictType (insert value.text members) result.1 := by
  obtain ⟨elements, ⟨capacity, holds⟩, distinct, rfl⟩ := models
  rw [addToListpack]
  rcases findInListpack_spec holds small with ⟨absent, found⟩ | ⟨front, back, split, found⟩
  · rw [found]
    rw [← mem_toFinset] at absent
    rw [decide_eq_true absent]
    exact appendToListpack_spec holds distinct absent
  · have present : value.text ∈ elements.toFinset := by
      rw [split]
      simp
    rw [found, decide_eq_false (not_not_intro present), Finset.insert_eq_of_mem present]
    exact ⟨rfl, elements, ⟨capacity, holds⟩, distinct, rfl⟩

theorem insertIntoHt_eq (d : Dict Sds Unit) (s : Sds) : insertIntoHt setDictType server d s = (do
      let (d, added) ← dictAdd setDictType server.dictCanResize d s ()
      return (.ht d, added)) := by
  rw [insertIntoHt, dictAdd]
  cases dictFindPositionForInsert setDictType server.dictCanResize d s with
  | error fault => rfl
  | ok found =>
    obtain ⟨d', position⟩ := found
    cases position with
    | bucket index =>
      rw [ok_bind, ok_bind]
      dsimp only
      cases dictInsertAtPosition d' s () index <;> rfl
    | existing link => rfl
    | failed => rfl

theorem insertIntoHt_spec {d : Dict Sds Unit} (models : SetModels setDictType members (.ht d)) (s : Sds) :
    Outcome (insertIntoHt setDictType server d s) (· = .outOfMemory) fun result =>
      result.2 = decide (s ∉ members) ∧ SetModels setDictType (insert s members) result.1 := by
  obtain ⟨map, stored, rfl⟩ := models
  rw [insertIntoHt_eq]
  by_cases present : s ∈ map.keys
  · obtain ⟨val, found⟩ := Finmap.mem_iff.mp (Finmap.mem_keys.mp present)
    refine (dictAdd_models stored server.dictCanResize s ()).bind ?_
    rintro ⟨d', added⟩ ⟨models', status⟩
    rw [mapStep, found] at models' status
    obtain rfl : false = added := DictReply.status.inj status
    rw [decide_eq_false (not_not_intro present), Finset.insert_eq_of_mem present]
    exact ⟨rfl, map, models', rfl⟩
  · refine (dictAdd_new stored server.dictCanResize present ()).bind ?_
    rintro ⟨d', added⟩ ⟨success, models'⟩
    rw [decide_eq_true present]
    exact ⟨success, _, models', (keys_insert s ()).symm⟩

theorem setTypeAddAux_spec (models : SetModels setDictType members set) (fits : ValueFits set value .add) :
    Outcome (setTypeAddAux setDictType server set value) (· = .outOfMemory) fun result =>
      result.2 = decide (value.text ∉ members) ∧ SetModels setDictType (insert value.text members) result.1 := by
  cases set with
  | ht d =>
    rw [setTypeAddAux, value.str_eq]
    exact insertIntoHt_spec models value.text
  | listpack lp =>
    rw [setTypeAddAux, value.str_eq]
    exact addToListpack_spec models fits
  | intset is =>
    rw [setTypeAddAux]
    cases found : value.llval with
    | some v =>
      rw [SetValue.text_of_llval found]
      exact addToIntset_spec models v (fits.tail found)
    | none =>
      rw [value.str_eq]
      exact addStringToIntset_spec models (SetValue.string2ll_of_llval found)

theorem lookup_isSome (map : Finmap fun _ : Sds => Unit) (s : Sds) : (map.lookup s).isSome = decide (s ∈ map.keys) := by
  rw [Bool.eq_iff_iff, Finmap.lookup_isSome, decide_eq_true_iff, Finmap.mem_keys]

theorem removeFromHt_spec {d : Dict Sds Unit} (models : SetModels setDictType members (.ht d)) (s : Sds) :
    ∃ set', removeFromHt setDictType server d s = .ok (set', decide (s ∈ members)) ∧
      SetModels setDictType (members.erase s) set' := by
  obtain ⟨map, stored, rfl⟩ := models
  obtain ⟨next, deleted, stored'⟩ := dictGenericDelete_models stored server.dictCanResize s
  have deleted' : dictDelete setDictType server.dictCanResize d s = .ok (next, decide (s ∈ map.keys)) := by
    rw [dictDelete, deleted, ← lookup_isSome]
    rfl
  have keys := (Finmap.keys_erase s map).symm
  rw [removeFromHt, deleted', ok_bind]
  dsimp only
  split
  · exact ⟨_, rfl, _, stored'.kept (dictResize_kept server.dictCanResize stored'.invariant), keys⟩
  · exact ⟨_, rfl, _, stored', keys⟩

theorem models_delete {front back : List Sds} (holds : IsListpack lp (front ++ back))
    (distinct : (front ++ s :: back).Nodup) :
    SetModels setDictType ((front ++ s :: back).toFinset.erase s) (.listpack lp) := by
  have apart := nodup_middle.mp distinct
  refine ⟨_, holds, (nodup_cons.mp apart).2, ?_⟩
  have absent := (nodup_cons.mp apart).1
  rw [toFinset_eq_of_perm _ _ perm_middle, toFinset_cons, Finset.erase_insert]
  rwa [mem_toFinset]

theorem removeFromListpack_spec (models : SetModels setDictType members (.listpack lp)) (small : s.length < 2 ^ 32) :
    ∃ set', removeFromListpack lp s = .ok (set', decide (s ∈ members)) ∧
      SetModels setDictType (members.erase s) set' := by
  obtain ⟨elements, ⟨capacity, holds⟩, distinct, rfl⟩ := models
  rw [removeFromListpack]
  rcases findInListpack_spec holds small with ⟨absent, found⟩ | ⟨front, back, rfl, found⟩
  · rw [← mem_toFinset] at absent
    rw [found, decide_eq_false absent, Finset.erase_eq_of_notMem absent]
    exact ⟨_, rfl, elements, ⟨capacity, holds⟩, distinct, rfl⟩
  · obtain ⟨lp', deleted, holds'⟩ := holds.delete
    have present : s ∈ (front ++ s :: back).toFinset := by simp
    rw [found, ok_bind, decide_eq_true present]
    dsimp only
    rw [deleted]
    exact ⟨_, rfl, models_delete ⟨capacity, holds'⟩ distinct⟩

theorem intsetRemove_spec (models : SetModels setDictType members (.intset is)) (v : Int64)
    (fits : tailBytes is (.remove v) < 2 ^ 32) :
    ∃ is', intsetRemove is v.toInt = .ok (is', decide (signedDecimal v.toInt ∈ members)) ∧
      SetModels setDictType (members.erase (signedDecimal v.toInt)) (.intset is') := by
  obtain ⟨ints, stored, bound, rfl⟩ := models
  obtain ⟨next, removed, stored', _⟩ := intsetRemove_models stored ⟨by omega, fits⟩
  refine ⟨next, ?_, _, stored', ?_, erase_image_signedDecimal stored (int64_range v)⟩
  · rw [removed]
    simp only [mem_image_signedDecimal stored (int64_range v)]
  · rw [models_length stored']
    rw [models_length stored] at bound
    exact (Finset.card_erase_le).trans bound

theorem setTypeRemoveAux_spec (server : Server) (models : SetModels setDictType members set) (fits : ValueFits set value .remove) :
    ∃ set', setTypeRemoveAux setDictType server set value = .ok (set', decide (value.text ∈ members)) ∧
      SetModels setDictType (members.erase value.text) set' := by
  cases set with
  | ht d =>
    rw [setTypeRemoveAux, value.str_eq]
    exact removeFromHt_spec models value.text
  | listpack lp =>
    rw [setTypeRemoveAux, value.str_eq]
    exact removeFromListpack_spec models fits
  | intset is =>
    rw [setTypeRemoveAux]
    cases found : value.llval with
    | some v =>
      obtain ⟨next, removed, models'⟩ := intsetRemove_spec models v (fits.tail found)
      rw [SetValue.text_of_llval found]
      dsimp only
      rw [removed]
      exact ⟨_, rfl, models'⟩
    | none =>
      have absent := notMem_intset models (SetValue.string2ll_of_llval found)
      rw [decide_eq_false absent, Finset.erase_eq_of_notMem absent]
      exact ⟨_, rfl, models⟩

theorem setTypeIsMemberAux_spec (server : Server) (models : SetModels setDictType members set) (fits : ValueFits set value .find) :
    ∃ set', setTypeIsMemberAux setDictType server set value = .ok (set', decide (value.text ∈ members)) ∧
      SetModels setDictType members set' := by
  cases set with
  | ht d =>
    obtain ⟨map, stored, rfl⟩ := models
    obtain ⟨next, found, stored'⟩ := dictFind_models stored server.dictCanResize value.text
    rw [setTypeIsMemberAux, value.str_eq, ok_bind, found, ← lookup_isSome]
    exact ⟨_, rfl, map, stored', rfl⟩
  | listpack lp =>
    refine ⟨_, ?_, models⟩
    obtain ⟨elements, ⟨capacity, holds⟩, distinct, rfl⟩ := models
    rw [setTypeIsMemberAux, value.str_eq, ok_bind]
    rcases findInListpack_spec holds fits with ⟨absent, found⟩ | ⟨front, back, split, found⟩
    · rw [← mem_toFinset] at absent
      rw [found, decide_eq_false absent]
      rfl
    · have present : value.text ∈ elements.toFinset := by
        rw [split]
        simp
      rw [found, decide_eq_true present]
      rfl
  | intset is =>
    refine ⟨_, ?_, models⟩
    rw [setTypeIsMemberAux]
    cases found : value.llval with
    | some v =>
      obtain ⟨ints, stored, bound, rfl⟩ := models
      have same := mem_image_signedDecimal stored (int64_range v)
      obtain ⟨values, stores, sorted, _, listing⟩ := stored
      rw [SetValue.text_of_llval found]
      dsimp only
      rw [intsetFind_eq v stores sorted (by rw [← stores.length]; omega), ok_bind]
      simp only [same, listing]
      rfl
    | none => rw [decide_eq_false (notMem_intset models (SetValue.string2ll_of_llval found))]; rfl

/-- The removal of the random integer from an intset moves fewer than `2 ^ 32` bytes. -/
def PopFits (set : SetObject) (choice : RandomChoice) : Prop :=
  match set with
  | .intset is =>
    match intsetRandom is choice with
    | .ok value => tailBytes is (.remove (Int64.ofInt value)) < 2 ^ 32
    | .error _ => True
  | _ => True

instance (set : SetObject) (choice : RandomChoice) : Decidable (PopFits set choice) := by
  unfold PopFits
  split
  · split <;> infer_instance
  · infer_instance

theorem intsetRandom_spec (models : IntegerSet.Models is ints) (inhabited : ints.Nonempty) (choice : RandomChoice) :
    ∃ v ∈ ints, intsetRandom is choice = .ok v := by
  have length := models_length models
  have positive := Finset.card_pos.mpr inhabited
  obtain ⟨values, stores, sorted, _, same⟩ := models
  have inside : choice.rand 0 % (randMax + 1) % is.length < values.length := by
    rw [← stores.length]
    exact Nat.mod_lt _ (by omega)
  refine ⟨values[choice.rand 0 % (randMax + 1) % is.length], (same _).mp (getElem_mem inside), ?_⟩
  rw [intsetRandom, require_of (by omega)]
  exact stores.get (getElem?_eq_getElem inside)

variable (models : SetModels setDictType members set)
include models
theorem setTypePopRandom_spec (server : Server) (inhabited : members.Nonempty) (choice : RandomChoice)
    (fits : PopFits set choice) :
    ∃ set' s, setTypePopRandom setDictType server set choice = .ok (set', s) ∧ s ∈ members ∧
      SetModels setDictType (members.erase s) set' := by
  cases set with
  | ht d =>
    obtain ⟨map, stored, rfl⟩ := models
    have filled : dictSize d ≠ 0 := by
      intro none
      obtain ⟨s, member⟩ := inhabited
      have absent := stored.lookup_of_size none s
      exact Finmap.lookup_eq_none.mp absent (Finmap.mem_keys.mp member)
    obtain ⟨next, entry, picked, kept, member⟩ :=
      dictGetFairRandomKey_spec server.dictCanResize choice.dict stored.invariant filled
    have models' : SetModels setDictType map.keys (.ht next) := ⟨map, stored.kept kept, rfl⟩
    obtain ⟨set', removed, models''⟩ := removeFromHt_spec models' entry.1
    refine ⟨set', entry.1, ?_, ?_, models''⟩
    · rw [setTypePopRandom, picked, ok_bind]
      dsimp only
      rw [setTypeRemoveAux, SetValue.str_eq, ok_bind]
      dsimp only [SetValue.text]
      rw [removed]
      rfl
    · rw [Finmap.mem_keys, (stored.kept kept).represents.mem_keys_iff]
      exact mem_map_of_mem member
  | listpack lp =>
    obtain ⟨elements, ⟨capacity, holds⟩, distinct, rfl⟩ := models
    have some : elements ≠ [] := by
      rintro rfl
      exact Finset.not_nonempty_empty inhabited
    obtain ⟨front, x, back, lp', rfl, picked, holds'⟩ := holds.nextRandom some choice.rand
    obtain ⟨entry, got, stands⟩ := holds'.getValue
    obtain ⟨lp'', deleted, holds''⟩ := holds'.delete
    refine ⟨_, x, ?_, by simp, models_delete ⟨capacity, holds''⟩ distinct⟩
    rw [setTypePopRandom, holds.first, ok_bind, picked, ok_bind]
    dsimp only
    rw [got, ok_bind, entryText_of stands, deleted]
    rfl
  | intset is =>
    have stored := models
    obtain ⟨ints, stored, bound, rfl⟩ := stored
    obtain ⟨v, member, picked⟩ := intsetRandom_spec stored (Finset.image_nonempty.mp inhabited) choice
    obtain ⟨lower, upper⟩ := models_range stored member
    have same := Int64.toInt_ofInt_of_le lower upper
    rw [PopFits, picked] at fits
    obtain ⟨is', removed, models'⟩ := intsetRemove_spec models (Int64.ofInt v) fits
    rw [same] at removed models'
    refine ⟨.intset is', signedDecimal v, ?_, Finset.mem_image_of_mem _ member, models'⟩
    have decimal : ll2string longStrSize v = .ok (signedDecimal v) := ll2string_eq lower (by omega)
    rw [setTypePopRandom, picked, ok_bind, decimal, setTypeRemoveAux]
    dsimp only [SetValue.llval]
    rw [same, removed]
    rfl

theorem setTypeMaybeConvert_spec (sizeHint : Nat) :
    Outcome (setTypeMaybeConvert setDictType server set sizeHint) (· = .outOfMemory) fun set' =>
      SetModels setDictType members set' := by
  have converted : Outcome (setTypeConvertAndExpand setDictType server set .ht sizeHint) (· = .outOfMemory) fun set' =>
      SetModels setDictType members set' := by
    refine (convertToHt_spec models.listed sizeHint).bind fun d ⟨map, models', keys⟩ => ?_
    exact ⟨map, models', keys.symm⟩
  cases set with
  | ht d => exact models
  | listpack lp =>
    rw [setTypeMaybeConvert]
    split
    · exact converted
    · exact models
  | intset is =>
    rw [setTypeMaybeConvert]
    split
    · exact converted
    · exact models

theorem setTypeSize_spec :
    ∃ set', setTypeSize set = .ok (members.card, set') ∧ SetModels setDictType members set' := by
  cases set with
  | ht d =>
    refine ⟨_, ?_, models⟩
    obtain ⟨map, stored, rfl⟩ := models
    rw [setTypeSize, stored.invariant.dictSize_eq, stored.represents.card_keys stored.invariant.distinct]
  | listpack lp =>
    obtain ⟨elements, ⟨capacity, holds⟩, distinct, rfl⟩ := models
    obtain ⟨lp', measured, holds'⟩ := holds.length
    rw [setTypeSize, measured, toFinset_card_of_nodup distinct]
    exact ⟨_, rfl, elements, ⟨capacity, holds'⟩, distinct, rfl⟩
  | intset is =>
    refine ⟨_, ?_, models⟩
    obtain ⟨ints, stored, bound, rfl⟩ := models
    rw [setTypeSize, card_image_signedDecimal stored, models_length stored]

theorem maybeConvertToIntset_spec (server : Server) (integers : ∀ s ∈ members, (string2ll s).isSome)
    (fits : members.card < 2 ^ 29 ∨ intsetMaxEntries server < members.card) :
    ∃ set', maybeConvertToIntset server set = .ok set' ∧ SetModels setDictType members set' := by
  obtain ⟨set', measured, models'⟩ := setTypeSize_spec models
  cases set with
  | intset is => exact ⟨_, rfl, models⟩
  | _ =>
    unfold maybeConvertToIntset
    dsimp only
    rw [measured, ok_bind]
    split
    · exact ⟨_, rfl, models'⟩
    · rename_i few
      obtain ⟨is, collected, ints, stored, rfl⟩ := collectIntset_spec models'.listed (fits.resolve_right few) integers
      rw [collected]
      refine ⟨_, rfl, ints, stored, ?_, rfl⟩
      rw [models_length stored, ← card_image_signedDecimal stored]
      omega

omit models

theorem setTypeCreate_models (server : Server) (value : Sds) (sizeHint : Nat) :
    SetModels setDictType ∅ (setTypeCreate server value sizeHint) := by
  rw [setTypeCreate]
  split
  · exact ⟨∅, models_intsetNew, by decide, rfl⟩
  split
  · exact ⟨[], ⟨0, holds_lpNew le_rfl⟩, nodup_nil, rfl⟩
  · exact ⟨∅, (Dict.models_dictCreate setDictType).kept
      (dictExpand_kept sizeHint (Dict.invariant_dictCreate setDictType)), rfl⟩

end Redis.SetType

import Redis.Foundation.EntryList
import Redis.Proof.Dict.Insertion

namespace Redis.Dictionary
open Foundation List
variable {K V : Type} [DecidableEq K] {type : DictType K} {d : Dict K V}
variable {link first second : DictLink} {key : K} {val val' : V}

def mapStep (map : Finmap fun _ : K => V) : DictOp K V → (Finmap fun _ : K => V) × DictReply V
  | .add key val =>
    match map.lookup key with
    | none => (map.insert key val, .status true)
    | some _ => (map, .status false)
  | .replace key val => (map.insert key val, .status (map.lookup key).isNone)
  | .delete key => (map.erase key, .status (map.lookup key).isSome)
  | .unlink key => (map.erase key, .entry (map.lookup key))
  | .twoPhaseUnlink key => (map.erase key, .entry (map.lookup key))
  | .find key => (map, .entry (map.lookup key))
  | .empty => (∅, .done)
  | .expand _ | .resize | .rehash _ => (map, .done)
  | .pauseRehashing | .resumeRehashing | .setResizeEnabled _ => (map, .done)

/-- A valid dictionary stores a finite map. -/
structure Dict.Models (type : DictType K) (d : Dict K V) (map : Finmap fun _ : K => V) : Prop where
  invariant : d.Invariant type
  fits : d.Fits
  represents : Represents d.entries map

variable {map : Finmap fun _ : K => V}

theorem Dict.models_dictCreate (type : DictType K) : (dictCreate : Dict K V).Models type ∅ :=
  ⟨Dict.invariant_dictCreate type, by simp [Dict.Fits, dictSize, dictCreate, dictReset], represents_nil⟩

theorem Dict.Models.kept {next : Dict K V} (models : d.Models type map) (kept : d.Kept type next) :
    next.Models type map :=
  ⟨kept.1, kept.fits models.invariant models.fits, models.represents.perm kept.2⟩

theorem Dict.Models.set_pauserehash (models : d.Models type map) (pause : BitVec 16) :
    ({ d with pauserehash := pause } : Dict K V).Models type map :=
  ⟨models.invariant.set_pauserehash pause, models.fits, models.represents⟩

omit [DecidableEq K] in
theorem Dict.LinkedAt.mem_tableAt
    (linked : d.LinkedAt link key val) : (key, val) ∈ (d.tableAt link.table).table.flatten := by
  obtain ⟨chain, read, cell⟩ := linked
  exact mem_flatten.mpr ⟨chain, mem_of_getElem? read, mem_of_getElem? cell⟩

omit [DecidableEq K] in
theorem Dict.LinkedAt.mem_entries (linked : d.LinkedAt link key val) : (key, val) ∈ d.entries := by
  have inside := linked.mem_tableAt
  unfold Dict.tableAt at inside
  split at inside
  · exact mem_append_left _ inside
  · exact mem_append_right _ inside

omit [DecidableEq K] in
theorem Dict.exists_linkedAt (member : (key, val) ∈ d.entries) : ∃ link, d.LinkedAt link key val := by
  have inside : ∃ index, (key, val) ∈ (d.tableAt index).table.flatten := by
    rcases mem_append.mp member with member | member
    · exact ⟨0, member⟩
    · exact ⟨1, member⟩
  obtain ⟨index, inside⟩ := inside
  obtain ⟨chain, chains, inside⟩ := mem_flatten.mp inside
  obtain ⟨bucket, read⟩ := mem_iff_getElem?.mp chains
  obtain ⟨position, cell⟩ := mem_iff_getElem?.mp inside
  exact ⟨⟨index, bucket, position⟩, chain, read, cell⟩

theorem Dict.Models.lookup_linked (models : d.Models type map)
    (linked : d.LinkedAt link key val) : map.lookup key = some val :=
  models.represents.lookup_of_mem linked.mem_entries

theorem Dict.Models.unlink (models : d.Models type map) (linked : d.LinkedAt link key val) :
    ∃ next, unlinkEntry d link = .ok next ∧ next.Models type (map.erase key) := by
  obtain ⟨next, unlinked, invariant, entries⟩ := unlinkEntry_spec models.invariant linked
  refine ⟨next, unlinked, invariant, ?_, ?_⟩
  · have fits := models.fits
    rw [Dict.Fits, models.invariant.dictSize_eq, entries.length_eq, length_cons] at fits
    rw [Dict.Fits, invariant.dictSize_eq]
    simp only [dictEntryBytes] at fits ⊢
    omega
  · have distinct := (entries.map Prod.fst).nodup_iff.mp models.invariant.distinct
    exact (models.represents.perm entries.symm).erase (not_mem_of_nodup_cons distinct)

theorem Dict.Models.set_val (models : d.Models type map) {old : V} (linked : d.LinkedAt link key old) (val : V) :
    ∃ next, dictSetVal d link val = .ok next ∧ next.Models type (map.insert key val) := by
  obtain ⟨next, set, invariant, other, before, after⟩ := dictSetVal_spec models.invariant linked val
  refine ⟨next, set, invariant, ?_, ?_⟩
  · have fits := models.fits
    rw [Dict.Fits, models.invariant.dictSize_eq, before.length_eq] at fits
    rw [Dict.Fits, invariant.dictSize_eq, after.length_eq]
    exact fits
  · have distinct := (before.map Prod.fst).nodup_iff.mp models.invariant.distinct
    exact ((models.represents.perm before.symm).replace (not_mem_of_nodup_cons distinct)).perm after

omit [DecidableEq K] in
theorem Dict.Invariant.present_of_size (invariant : d.Invariant type) (inhabited : dictSize d ≠ 0) :
    d.ht0.sizeExp ≠ -1 := by
  intro absent
  have idle : ¬ dictIsRehashing d := fun rehashing => (invariant.active rehashing).present0 absent
  apply inhabited
  rw [invariant.dictSize_eq, invariant.entries_idle idle, invariant.table0.table_eq_nil_iff.mpr absent]
  rfl

variable (models : d.Models type map)
include models
theorem Dict.Models.lookup_of_size (none : dictSize d = 0) (key : K) : map.lookup key = .none := by
  rw [models.invariant.dictSize_eq, length_eq_zero_iff] at none
  exact models.represents.lookup_of_not_mem fun val => by simp [none]

variable (mode : DictResizeEnable)

theorem Dict.Models.search (inhabited : dictSize d ≠ 0) (key : K) :
    ∃ next found, dictRehashStep type mode d = .ok next ∧ searchTables type next key = .ok found ∧
      next.Models type map ∧ map.lookup key = found.map Prod.snd ∧
      ∀ link val, found = some (link, val) → next.LinkedAt link key val := by
  obtain ⟨next, stepped, kept⟩ := dictRehashStep_spec mode models.invariant
  have models' := models.kept kept
  have inhabited' : dictSize next ≠ 0 := by
    rwa [kept.1.dictSize_eq, kept.2.length_eq, ← models.invariant.dictSize_eq]
  obtain ⟨found, searched, result⟩ := searchTables_spec kept.1 (kept.1.present_of_size inhabited') key
  refine ⟨next, found, stepped, searched, models', ?_, ?_⟩
  · cases found with
    | none => exact models'.represents.lookup_of_not_mem result
    | some found => exact models'.lookup_linked result
  · rintro link val rfl
    exact result

theorem Dict.Models.insert (present : d.ht0.sizeExp ≠ -1) (key : K) (val : V) (absent : ∀ val, (key, val) ∉ d.entries) :
    Outcome (dictInsertAtPosition d key val (bucketIndex type
        (d.tableAt (if dictIsRehashing d then 1 else 0)).sizeExp key)) (· = .outOfMemory)
      fun next => next.Models type (map.insert key val) :=
  (dictInsertAtPosition_spec models.invariant present key val absent).mono
    fun _ ⟨invariant, fits, entries, _⟩ => ⟨invariant, fits, (models.represents.insert absent).perm entries⟩

theorem dictAdd_models (key : K) (val : V) : Outcome (dictAdd type mode d key val) (· = .outOfMemory) fun result =>
      result.1.Models type (mapStep map (.add key val)).1 ∧ (mapStep map (.add key val)).2 = .status result.2 := by
  obtain ⟨next, position, found, kept, -, result⟩ :=
    dictFindPositionForInsert_spec mode models.invariant models.fits key
  have models' := models.kept kept
  rw [dictAdd, found]
  rcases result with ⟨link, old, rfl, linked⟩ | ⟨absent, present, rfl⟩
  · simp only [mapStep, models'.lookup_linked linked]
    exact ⟨models', rfl⟩
  · simp only [mapStep, models'.represents.lookup_of_not_mem absent]
    exact (models'.insert present key val absent).bind fun _ inserted => ⟨inserted, rfl⟩

theorem dictReplace_models (key : K) (val : V) :
    Outcome (dictReplace type mode d key val) (· = .outOfMemory) fun result =>
      result.1.Models type (map.insert key val) ∧ result.2 = (map.lookup key).isNone := by
  obtain ⟨next, position, found, kept, -, result⟩ :=
    dictFindPositionForInsert_spec mode models.invariant models.fits key
  have models' := models.kept kept
  rw [dictReplace, found, ok_bind]
  rcases result with ⟨link, old, rfl, linked⟩ | ⟨absent, present, rfl⟩
  · obtain ⟨last, set, models''⟩ := models'.set_val linked val
    simp only [set, models'.lookup_linked linked]
    exact ⟨models'', rfl⟩
  · rw [models'.represents.lookup_of_not_mem absent]
    exact (models'.insert present key val absent).bind fun _ inserted => ⟨inserted, rfl⟩

theorem dictGenericDelete_models (key : K) : ∃ next, dictGenericDelete type mode d key = .ok (next, map.lookup key) ∧
      next.Models type (map.erase key) := by
  unfold dictGenericDelete
  split
  · rename_i none
    have absent := models.lookup_of_size none key
    rw [absent, erase_of_lookup_eq_none absent]
    exact ⟨d, rfl, models⟩
  · rename_i inhabited
    obtain ⟨next, found, stepped, searched, models', lookup, linked⟩ := models.search mode inhabited key
    simp only [stepped, ok_bind, searched, lookup]
    cases found with
    | none =>
      rw [erase_of_lookup_eq_none lookup]
      exact ⟨next, rfl, models'⟩
    | some found =>
      obtain ⟨last, unlinked, models''⟩ := models'.unlink (linked _ _ rfl)
      simp only [unlinked]
      exact ⟨last, rfl, models''⟩

theorem dictFind_models (key : K) :
    ∃ next, dictFind type mode d key = .ok (next, map.lookup key) ∧ next.Models type map := by
  unfold dictFind
  split
  · rename_i none
    rw [models.lookup_of_size none key]
    exact ⟨d, rfl, models⟩
  · rename_i inhabited
    obtain ⟨next, found, stepped, searched, models', lookup, _⟩ := models.search mode inhabited key
    simp only [stepped, ok_bind, searched, lookup]
    exact ⟨next, rfl, models'⟩

theorem dictTwoPhaseUnlink_models (key : K) :
    ∃ next found last, dictTwoPhaseUnlinkFind type mode d key = .ok (next, found) ∧
      dictTwoPhaseUnlinkFree next found = .ok last ∧ found.map Prod.snd = map.lookup key ∧
      last.Models type (map.erase key) := by
  unfold dictTwoPhaseUnlinkFind
  split
  · rename_i none
    have absent := models.lookup_of_size none key
    rw [absent, erase_of_lookup_eq_none absent]
    exact ⟨d, .none, d, rfl, rfl, rfl, models⟩
  · rename_i inhabited
    obtain ⟨next, found, stepped, searched, models', lookup, linked⟩ := models.search mode inhabited key
    simp only [stepped, ok_bind, searched, lookup]
    cases found with
    | none =>
      rw [erase_of_lookup_eq_none lookup]
      exact ⟨next, .none, next, rfl, rfl, rfl, models'⟩
    | some found =>
      have paused := models'.set_pauserehash (next.pauserehash + 1)
      obtain ⟨last, unlinked, models''⟩ := paused.unlink
        (show Dict.LinkedAt { next with pauserehash := next.pauserehash + 1 } found.1 key found.2
          from linked _ _ rfl)
      refine ⟨_, some found, dictResumeRehashing last, rfl, ?_, rfl, models''.set_pauserehash (last.pauserehash - 1)⟩
      simp only [dictTwoPhaseUnlinkFree, dictPauseRehashing, unlinked]
      rfl

omit models

theorem dictStep_models (state : DictState K V) (map : Finmap fun _ : K => V) (op : DictOp K V)
    (models : state.dict.Models type map) :
    Outcome (dictStep type state op) (· = .outOfMemory) fun result =>
      result.1.dict.Models type (mapStep map op).1 ∧ result.2 = (mapStep map op).2 := by
  cases op with
  | add key val =>
    exact (dictAdd_models models state.mode key val).bind
      fun _ result => ⟨result.1, result.2.symm⟩
  | replace key val =>
    exact (dictReplace_models models state.mode key val).bind
      fun _ result => ⟨result.1, congrArg DictReply.status result.2⟩
  | delete key =>
    obtain ⟨next, deleted, models'⟩ := dictGenericDelete_models models state.mode key
    simp only [dictStep, dictDelete, deleted]
    exact ⟨models', rfl⟩
  | unlink key =>
    obtain ⟨next, deleted, models'⟩ := dictGenericDelete_models models state.mode key
    simp only [dictStep, dictUnlink, deleted]
    exact ⟨models', rfl⟩
  | twoPhaseUnlink key =>
    obtain ⟨next, found, last, first, second, lookup, models'⟩ := dictTwoPhaseUnlink_models models state.mode key
    simp only [dictStep, first, second, ok_bind, lookup]
    exact ⟨models', rfl⟩
  | find key =>
    obtain ⟨next, found, models'⟩ := dictFind_models models state.mode key
    simp only [dictStep, found]
    exact ⟨models', rfl⟩
  | expand size => exact ⟨models.kept (dictExpand_kept size models.invariant), rfl⟩
  | resize => exact ⟨models.kept (dictResize_kept state.mode models.invariant), rfl⟩
  | rehash n =>
    obtain ⟨next, more, rehashed, kept⟩ := dictRehash_spec state.mode n models.invariant
    simp only [dictStep, rehashed]
    exact ⟨models.kept kept, rfl⟩
  | empty => exact ⟨Dict.models_dictCreate type, rfl⟩
  | pauseRehashing => exact ⟨models.set_pauserehash _, rfl⟩
  | resumeRehashing => exact ⟨models.set_pauserehash _, rfl⟩
  | setResizeEnabled mode => exact ⟨models, rfl⟩

omit [DecidableEq K] in
theorem Dict.LinkedAt.bucket_eq (invariant : d.Invariant type) (linked : d.LinkedAt link key val) :
    link.bucket = bucketIndex type (d.tableAt link.table).sizeExp key := by
  obtain ⟨chain, read, cell⟩ := linked
  exact ((invariant.tableAt link.table).placed _ _ read _ (mem_of_getElem? cell)).symm

omit [DecidableEq K] in
theorem Dict.Invariant.linked_tables_eq (invariant : d.Invariant type)
    (one : d.LinkedAt first key val) (two : d.LinkedAt second key val') :
    first.table = second.table := by
  have distinct := invariant.distinct
  rw [Dict.entries, map_append, nodup_append'] at distinct
  have left := mem_map_of_mem (f := Prod.fst) one.mem_tableAt
  have right := mem_map_of_mem (f := Prod.fst) two.mem_tableAt
  unfold Dict.tableAt at left right
  split_ifs at left right
  · omega
  · exact (distinct.2.2 left right).elim
  · exact (distinct.2.2 right left).elim
  · omega

omit [DecidableEq K] in
theorem Dict.Invariant.chain_nodup (invariant : d.Invariant type) {index : Fin 2} {bucket : Nat}
    {chain : List (K × V)} (read : (d.tableAt index).table[bucket]? = some chain) : (chain.map Prod.fst).Nodup := by
  refine List.Nodup.sublist ?_ invariant.distinct
  refine List.Sublist.map _ ((sublist_flatten_of_mem (mem_of_getElem? read)).trans ?_)
  unfold Dict.tableAt Dict.entries
  split
  · exact sublist_append_left _ _
  · exact sublist_append_right _ _

omit [DecidableEq K] in
theorem Dict.Invariant.link_unique (invariant : d.Invariant type)
    (one : d.LinkedAt first key val) (two : d.LinkedAt second key val') :
    first = second := by
  have tables := invariant.linked_tables_eq one two
  have bucket := Dict.LinkedAt.bucket_eq invariant one
  have bucket' := Dict.LinkedAt.bucket_eq invariant two
  rw [← tables, ← bucket] at bucket'
  obtain ⟨chain, read, cell⟩ := one
  obtain ⟨chain', read', cell'⟩ := two
  rw [← tables, bucket', read] at read'
  obtain rfl := Option.some.inj read'
  have positions : first.position = second.position := by
    obtain ⟨bound, _⟩ := List.getElem?_eq_some_iff.mp cell
    refine (getElem?_inj (by simpa using bound) (invariant.chain_nodup read)).mp ?_
    rw [getElem?_map, getElem?_map, cell, cell']
    rfl
  cases first
  cases second
  simp_all

/-- A run from the empty dictionary replies as the finite map does. At its end the size is
the number of keys, each key has one link in the bucket of its masked hash, and the buckets
of table 0 below `rehashidx` are empty. -/
theorem dict_refines_finmap (type : DictType K) (mode : DictResizeEnable) (ops : List (DictOp K V)) :
    Outcome (run (dictStep type) ⟨dictCreate, mode⟩ ops) (· = .outOfMemory) fun result =>
      let d := result.1.dict
      let map := (specRun mapStep ∅ ops).1
      result.2 = (specRun mapStep ∅ ops).2 ∧
      (∀ key, ∃ next, dictFind type result.1.mode d key = .ok (next, map.lookup key)) ∧
      dictSize d = map.keys.card ∧
      (∀ key ∈ map, ∃! link : DictLink, ∃ val, d.LinkedAt link key val) ∧
      (∀ link key val, d.LinkedAt link key val →
        map.lookup key = some val ∧ link.bucket = bucketIndex type (d.tableAt link.table).sizeExp key) ∧
      (dictIsRehashing d → ∀ bucket < d.rehashidx.toNat, d.ht0.table[bucket]? = some []) := by
  refine (run_simulates dictStep_models ops ⟨dictCreate, mode⟩ ∅ (Dict.models_dictCreate type)).mono ?_
  intro result ⟨models, replies⟩
  refine ⟨replies, ?_, ?_, ?_, ?_, ?_⟩
  · intro key
    obtain ⟨next, found, _⟩ := dictFind_models models result.1.mode key
    exact ⟨next, found⟩
  · rw [models.invariant.dictSize_eq, models.represents.card_keys models.invariant.distinct]
  · intro key member
    obtain ⟨val, found⟩ := Finmap.mem_iff.mp member
    obtain ⟨link, linked⟩ := Dict.exists_linkedAt ((models.represents key val).mp found)
    exact ⟨link, ⟨val, linked⟩, fun other ⟨_, linked'⟩ => models.invariant.link_unique linked' linked⟩
  · intro link key val linked
    exact ⟨models.lookup_linked linked, linked.bucket_eq models.invariant⟩
  · intro rehashing
    exact (models.invariant.active rehashing).emptied

end Redis.Dictionary

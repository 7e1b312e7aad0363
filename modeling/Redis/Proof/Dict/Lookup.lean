import Redis.Proof.Dict.Rehash

namespace Redis.Dictionary
open Foundation List
variable {K V : Type} {type : DictType K} {d : Dict K V}

/-- The entry of a key and a value is at a link. -/
def Dict.LinkedAt (d : Dict K V) (link : DictLink) (key : K) (val : V) : Prop :=
  ∃ chain, (d.tableAt link.table).table[link.bucket]? = some chain ∧ chain[link.position]? = some (key, val)

theorem Dict.Invariant.tableAt (invariant : d.Invariant type) (index : Fin 2) :
    (d.tableAt index).WellFormed type := by
  unfold Dict.tableAt
  split
  · exact invariant.table0
  · exact invariant.table1

/-- The chain walk finds the entry of a key or shows that the table has none. -/
theorem searchTable_spec [DecidableEq K] (invariant : d.Invariant type) (index : Fin 2)
    (present : (d.tableAt index).sizeExp ≠ -1) (key : K) :
    ∃ found, searchTable type d index key = .ok found ∧ match found with
      | none => ∀ val, (key, val) ∉ (d.tableAt index).table.flatten
      | some (link, val) => d.LinkedAt link key val := by
  have valid := invariant.tableAt index
  obtain ⟨chain, read⟩ := valid.read_bucket present key
  simp only [searchTable, readCell_of read, ok_bind]
  cases searched : chain.findIdx? (fun entry => decide (entry.1 = key)) with
  | none =>
    refine ⟨none, rfl, ?_⟩
    intro val member
    obtain ⟨other, found, inside⟩ := valid.mem_bucket member
    rw [read] at found
    obtain rfl := Option.some.inj found
    have differs := findIdx?_eq_none_iff.mp searched _ inside
    simp at differs
  | some position =>
    obtain ⟨inside, same, _⟩ := findIdx?_eq_some_iff_getElem.mp searched
    have cell := getElem?_eq_getElem inside
    simp only [readCell_of cell]
    have key_eq : (chain.get ⟨position, inside⟩).1 = key := by simpa using same
    refine ⟨_, rfl, chain, read, ?_⟩
    rw [cell, ← key_eq]
    rfl

/-- The lookup loop finds the entry of a key or shows that the dictionary has none. -/
theorem searchTables_spec [DecidableEq K] (invariant : d.Invariant type) (present : d.ht0.sizeExp ≠ -1) (key : K) :
    ∃ found, searchTables type d key = .ok found ∧ match found with
      | none => ∀ val, (key, val) ∉ d.entries
      | some (link, val) => d.LinkedAt link key val := by
  obtain ⟨found0, search0, result0⟩ := searchTable_spec invariant 0 present key
  simp only [searchTables, search0, ok_bind]
  cases found0 with
  | some found => exact ⟨some found, rfl, result0⟩
  | none =>
    dsimp only
    split
    · rename_i rehashing
      obtain ⟨found1, search1, result1⟩ := searchTable_spec invariant 1 (invariant.active rehashing).present1 key
      refine ⟨found1, search1, ?_⟩
      cases found1 with
      | some found => exact result1
      | none =>
        intro val member
        rcases mem_append.mp member with member | member
        · exact result0 val member
        · exact result1 val member
    · rename_i idle
      refine ⟨none, rfl, ?_⟩
      rw [invariant.entries_idle idle]
      exact result0

theorem Dict.setTable_entries (d : Dict K V) (index : Fin 2) (ht : HashTable K V)
    (before after : List (K × V)) {rest : List (K × V)}
    (old : (d.tableAt index).table.flatten.Perm (before ++ rest))
    (new : ht.table.flatten.Perm (after ++ rest)) :
    ∃ other, d.entries.Perm (before ++ other) ∧ (d.setTable index ht).entries.Perm (after ++ other) := by
  unfold Dict.tableAt at old
  unfold Dict.setTable
  by_cases first : index = 0
  · simp only [first, if_true] at old ⊢
    refine ⟨rest ++ d.ht1.table.flatten, ?_, ?_⟩
    · simpa only [Dict.entries, append_assoc] using old.append_right d.ht1.table.flatten
    · simpa only [Dict.entries, append_assoc] using new.append_right d.ht1.table.flatten
  · simp only [if_neg first] at old ⊢
    refine ⟨d.ht0.table.flatten ++ rest, ?_, ?_⟩
    · exact (old.append_left d.ht0.table.flatten).trans (perm_append_comm_assoc _ _ _)
    · exact (new.append_left d.ht0.table.flatten).trans (perm_append_comm_assoc _ _ _)

variable (invariant : d.Invariant type)
include invariant
/-- The invariant survives the update of a chain that stays in its bucket. Buckets below
`rehashidx` stay empty because an update of table 0 does not lengthen its chain. -/
theorem Dict.Invariant.setTable {index : Fin 2} {ht : HashTable K V}
    (valid : ht.WellFormed type) (same : ht.sizeExp = (d.tableAt index).sizeExp)
    (distinct : ((d.setTable index ht).entries.map Prod.fst).Nodup)
    (emptied : index = 0 → dictIsRehashing d → ∀ bucket : Nat, d.ht0.table[bucket]? = some [] →
      ht.table[bucket]? = some []) : (d.setTable index ht).Invariant type := by
  unfold Dict.setTable Dict.tableAt at *
  by_cases first : index = 0
  · simp only [first, if_true] at same distinct ⊢
    refine ⟨valid, invariant.table1, distinct, invariant.idle, fun rehashing => ?_⟩
    have active := invariant.active rehashing
    refine ⟨same ▸ active.present0, active.present1, same ▸ active.resized, active.lower, ?_,
      fun bucket below => emptied first rehashing bucket (active.emptied bucket below)⟩
    have upper := active.upper
    rw [invariant.table0.length_table, ← same, ← valid.length_table] at upper
    exact upper
  · simp only [if_neg first] at same distinct ⊢
    refine ⟨invariant.table0, valid, distinct, fun idle => same.trans (invariant.idle idle), fun rehashing => ?_⟩
    have active := invariant.active rehashing
    exact ⟨active.present0, same ▸ active.present1, same ▸ active.resized, active.lower, active.upper, active.emptied⟩

/-- The dictionary with another chain in a bucket. -/
def Dict.setChain (d : Dict K V) (index : Fin 2) (bucket : Nat) (chain : List (K × V)) (used : Nat) : Dict K V :=
  d.setTable index ⟨(d.tableAt index).table.set bucket chain, used, (d.tableAt index).sizeExp⟩

theorem Dict.Invariant.replaceEntry {link : DictLink} {key : K} {val : V} {used : Nat}
    {chain chain' new : List (K × V)} (read : (d.tableAt link.table).table[link.bucket]? = some chain)
    (cell : chain[link.position]? = some (key, val)) (updated : chain'.Perm (new ++ chain.eraseIdx link.position))
    (keys : (new.map Prod.fst).Sublist [key]) (counted : used + 1 = (d.tableAt link.table).used + new.length) :
    (d.setChain link.table link.bucket chain' used).Invariant type ∧ ∃ other, d.entries.Perm ((key, val) :: other) ∧
        (d.setChain link.table link.bucket chain' used).entries.Perm (new ++ other) := by
  have valid := invariant.tableAt link.table
  obtain ⟨bound, same⟩ := List.getElem?_eq_some_iff.mp cell
  have removed : chain.Perm ((key, val) :: chain.eraseIdx link.position) := by
    rw [← same]
    exact (getElem_cons_eraseIdx_perm bound).symm
  have old := (flatten_perm_set read).trans (removed.append_right _)
  have fresh := (flatten_set_perm read chain').trans (updated.append_right _)
  obtain ⟨other, before, after⟩ := d.setTable_entries link.table
    ⟨(d.tableAt link.table).table.set link.bucket chain', used, (d.tableAt link.table).sizeExp⟩
    [(key, val)] new (by simpa using old) (by simpa using fresh)
  refine ⟨invariant.setTable (valid.set_chain ?_ ?_) rfl ?_ ?_, other, before, after⟩
  · intro entry member
    have placed := valid.placed _ _ read
    rcases mem_append.mp (updated.mem_iff.mp member) with member | member
    · rw [mem_singleton.mp (keys.subset (mem_map_of_mem member))]
      exact placed (key, val) (mem_of_getElem? cell)
    · exact placed entry (mem_of_mem_eraseIdx member)
  · have total := valid.counted
    rw [old.length_eq] at total
    rw [fresh.length_eq]
    simp only [length_append, length_cons] at total ⊢
    omega
  · have distinct := (before.map Prod.fst).nodup_iff.mp invariant.distinct
    apply (after.map Prod.fst).nodup_iff.mpr
    rw [map_append]
    exact distinct.sublist (keys.append_right _)
  · intro first _ bucket empty
    rw [first] at read ⊢
    rw [getElem?_set]
    split
    · rename_i same
      subst same
      obtain rfl : chain = [] := Option.some.inj (read.symm.trans empty)
      simp at cell
    · exact empty

theorem unlinkEntry_spec {link : DictLink} {key : K} {val : V} (linked : d.LinkedAt link key val) :
    ∃ next, unlinkEntry d link = .ok next ∧ next.Invariant type ∧ d.entries.Perm ((key, val) :: next.entries) := by
  obtain ⟨chain, read, cell⟩ := linked
  have inhabited : 0 < (d.tableAt link.table).used := by
    rw [(invariant.tableAt link.table).counted]
    exact length_pos_of_mem (mem_flatten.mpr ⟨chain, mem_of_getElem? read, mem_of_getElem? cell⟩)
  obtain ⟨next, other, before, after⟩ := invariant.replaceEntry read cell (.refl ([] ++ _)) (nil_sublist _)
    (Nat.sub_add_cancel inhabited)
  exact ⟨_, by simp only [unlinkEntry, readCell_of read]; rfl, next, before.trans (after.symm.cons _)⟩

theorem dictSetVal_spec {link : DictLink} {key : K} {old : V} (linked : d.LinkedAt link key old) (val : V) :
    ∃ next, dictSetVal d link val = .ok next ∧ next.Invariant type ∧
      ∃ other, d.entries.Perm ((key, old) :: other) ∧ next.entries.Perm ((key, val) :: other) := by
  obtain ⟨chain, read, cell⟩ := linked
  have bound := (List.getElem?_eq_some_iff.mp cell).1
  have updated : (chain.set link.position (key, val)).Perm ([(key, val)] ++ chain.eraseIdx link.position) :=
    set_perm_cons_eraseIdx bound _
  exact ⟨_, by simp only [dictSetVal, readCell_of read, readCell_of cell, ok_bind]; rfl,
    invariant.replaceEntry read cell updated (.refl _) rfl⟩

end Redis.Dictionary

import Redis.Proof.Dict.Table

namespace Redis.Dictionary
open Foundation List
variable {K V : Type} {type : DictType K} {d : Dict K V}

/-- The entries of both tables. -/
def Dict.entries (d : Dict K V) : List (K × V) := d.ht0.table.flatten ++ d.ht1.table.flatten

/-- The two tables differ in size, and table 0 is empty below `rehashidx`. -/
structure Dict.Rehashing (d : Dict K V) : Prop where
  present0 : d.ht0.sizeExp ≠ -1
  present1 : d.ht1.sizeExp ≠ -1
  resized : d.ht0.sizeExp ≠ d.ht1.sizeExp
  lower : 0 ≤ d.rehashidx
  upper : d.rehashidx.toNat ≤ d.ht0.table.length
  emptied : ∀ bucket < d.rehashidx.toNat, d.ht0.table[bucket]? = some []

/-- The hash-table invariant. -/
structure Dict.Invariant (type : DictType K) (d : Dict K V) : Prop where
  table0 : d.ht0.WellFormed type
  table1 : d.ht1.WellFormed type
  distinct : (d.entries.map Prod.fst).Nodup
  idle : ¬ dictIsRehashing d → d.ht1.sizeExp = -1
  active : dictIsRehashing d → d.Rehashing

theorem Dict.invariant_dictCreate (type : DictType K) : (dictCreate : Dict K V).Invariant type where
  table0 := HashTable.wellFormed_dictReset type
  table1 := HashTable.wellFormed_dictReset type
  distinct := by simp [Dict.entries, dictCreate, dictReset]
  idle := fun _ => rfl
  active := fun rehashing => absurd rfl rehashing

theorem Dict.Invariant.set_pauserehash (invariant : d.Invariant type) (pause : BitVec 16) :
    ({ d with pauserehash := pause } : Dict K V).Invariant type :=
  ⟨invariant.table0, invariant.table1, invariant.distinct, invariant.idle, fun rehashing =>
    let active := invariant.active rehashing
    ⟨active.present0, active.present1, active.resized, active.lower, active.upper, active.emptied⟩⟩

theorem Dict.Invariant.dictSize_eq (invariant : d.Invariant type) : dictSize d = d.entries.length := by
  rw [dictSize, invariant.table0.counted, invariant.table1.counted, Dict.entries, length_append]

theorem Dict.Invariant.entries_idle (invariant : d.Invariant type)
    (idle : ¬ dictIsRehashing d) : d.entries = d.ht0.table.flatten := by
  have empty := invariant.table1.table_eq_nil_iff.mpr (invariant.idle idle)
  simp [Dict.entries, empty]

/-- The skip loop finds the next nonempty bucket or stops at its visit limit. -/
theorem skipEmptyBuckets_spec (table : List (List (K × V))) (index : Nat) (visits : BitVec 32)
    (inhabited : table.flatten ≠ []) :
    ∃ skipped visits' stopped, skipEmptyBuckets table index visits = .ok (index + skipped, visits', stopped) ∧
      (∀ bucket < skipped, table[bucket]? = some []) ∧ skipped ≤ table.length ∧
      (stopped = false → ∃ entry chain, table[skipped]? = some (entry :: chain)) := by
  induction table generalizing index visits with
  | nil => simp at inhabited
  | cons head rest ih =>
    cases head with
    | cons entry chain =>
      exact ⟨0, visits, false, rfl, by simp, by simp, fun _ => ⟨entry, chain, rfl⟩⟩
    | nil =>
      by_cases last : visits - 1 = 0
      · refine ⟨1, visits - 1, true, by simp only [skipEmptyBuckets, if_pos last], ?_, by simp, by simp⟩
        intro bucket below
        obtain rfl : bucket = 0 := by omega
        rfl
      · obtain ⟨skipped, visits', stopped, result, empty, within, found⟩ :=
          ih (index + 1) (visits - 1) (by simpa using inhabited)
        refine ⟨skipped + 1, visits', stopped, ?_, ?_, by simpa using within, by simpa using found⟩
        · simp only [skipEmptyBuckets, if_neg last, result]
          rw [show index + 1 + skipped = index + (skipped + 1) by omega]
        · intro bucket below
          cases bucket with
          | zero => rfl
          | succ bucket => simpa using empty bucket (by omega)

/-- Shrinking masks the old bucket index, which agrees with masking the hash. -/
theorem rehashTarget_eq (invariant : d.Invariant type) (active : d.Rehashing) {index : Nat}
    {chain : List (K × V)} (found : d.ht0.table[index]? = some chain) {entry : K × V}
    (member : entry ∈ chain) :
    rehashTarget type d index entry.1 = bucketIndex type d.ht1.sizeExp entry.1 := by
  rw [rehashTarget]
  split
  · rfl
  · rename_i shrinks
    obtain ⟨exp0, fits0, same0, length0⟩ := invariant.table0.exists_exp active.present0
    obtain ⟨exp1, fits1, same1, _⟩ := invariant.table1.exists_exp active.present1
    have placed := invariant.table0.placed index chain found entry member
    rw [bucketIndex, same0, and_dicthtSizeMask _ (by omega)] at placed
    have inside : index < 2 ^ 64 := by
      rw [← placed]
      exact lt_of_lt_of_le (Nat.mod_lt _ (Nat.two_pow_pos exp0))
        (Nat.pow_le_pow_right (by decide) (by omega))
    rw [bucketIndex, same1, and_dicthtSizeMask _ (by omega), and_dicthtSizeMask _ (by omega),
      BitVec.toNat_ofNat, Nat.mod_eq_of_lt inside, ← placed,
      Nat.mod_mod_of_dvd _ (pow_dvd_pow 2 (by omega : exp1 ≤ exp0))]

/-- Moving a chain adds its entries to table 1 and only counts them out of table 0. -/
theorem moveChain_spec (index : Nat) (chain : List (K × V)) (d : Dict K V)
    (valid : d.ht1.WellFormed type) (present : d.ht1.sizeExp ≠ -1)
    (targets : ∀ entry ∈ chain, rehashTarget type d index entry.1 = bucketIndex type d.ht1.sizeExp entry.1) :
    ∃ ht1 : HashTable K V, moveChain type index chain d = .ok { d with
        ht1 := ht1, ht0 := { d.ht0 with used := d.ht0.used - chain.length } } ∧
      ht1.WellFormed type ∧ ht1.sizeExp = d.ht1.sizeExp ∧
      ht1.table.flatten.Perm (chain ++ d.ht1.table.flatten) := by
  induction chain generalizing d with
  | nil => exact ⟨d.ht1, rfl, valid, rfl, by simp⟩
  | cons entry chain ih =>
    obtain ⟨_, _, pushed, pushes, result, valid', grown⟩ := pushEntry_spec valid present entry
    have same : pushed.sizeExp = d.ht1.sizeExp := by rw [pushes]
    obtain ⟨ht1, moved, valid'', same', grown'⟩ := ih
      { d with ht1 := pushed, ht0 := { d.ht0 with used := d.ht0.used - 1 } } valid'
      (by rw [same]; exact present) (by
        intro other member
        have target := targets other (mem_cons_of_mem entry member)
        simpa only [rehashTarget, same] using target)
    refine ⟨ht1, ?_, valid'', same'.trans same, ?_⟩
    · rw [moveChain, targets entry mem_cons_self, result, ok_bind, moved]
      simp only [length_cons]
      rw [show d.ht0.used - 1 - chain.length = d.ht0.used - (chain.length + 1) by omega]
    · exact grown'.trans ((grown.append_left chain).trans perm_middle)

/-- One pass of the outer loop moves one whole bucket. -/
theorem moveBucket_invariant (invariant : d.Invariant type) (active : d.Rehashing) {index : Nat}
    {chain : List (K × V)} (found : d.ht0.table[index]? = some chain)
    (empty : ∀ bucket < index, d.ht0.table[bucket]? = some []) {ht1 : HashTable K V}
    (valid : ht1.WellFormed type) (same : ht1.sizeExp = d.ht1.sizeExp)
    (grown : ht1.table.flatten.Perm (chain ++ d.ht1.table.flatten)) :
    let next : Dict K V := { d with
      ht1 := ht1
      ht0 := ⟨d.ht0.table.set index [], d.ht0.used - chain.length, d.ht0.sizeExp⟩
      rehashidx := index + 1 }
    next.Invariant type ∧ next.entries.Perm d.entries := by
  intro next
  have split := flatten_perm_set found
  have inside : index < d.ht0.table.length := (List.getElem?_eq_some_iff.mp found).1
  have entries : next.entries.Perm d.entries := by
    calc next.entries = (d.ht0.table.set index []).flatten ++ ht1.table.flatten := rfl
      _ |>.Perm ((d.ht0.table.set index []).flatten ++ (chain ++ d.ht1.table.flatten)) := grown.append_left _
      _ |>.Perm (chain ++ (d.ht0.table.set index []).flatten ++ d.ht1.table.flatten) := by
        simpa only [append_assoc] using (perm_append_comm_assoc _ _ _)
      _ |>.Perm d.entries := split.symm.append_right _
  refine ⟨⟨?_, valid, ?_, ?_, ?_⟩, entries⟩
  · refine invariant.table0.set_chain (by simp) ?_
    have total := split.length_eq
    rw [length_append] at total
    rw [invariant.table0.counted]
    omega
  · exact (entries.map Prod.fst).nodup_iff.mpr invariant.distinct
  · intro idle
    exact absurd (show (index : Int) + 1 ≠ -1 by omega) idle
  · intro _
    refine ⟨active.present0, same ▸ active.present1, same ▸ active.resized, ?_, ?_, ?_⟩
    · change (0 : Int) ≤ index + 1
      omega
    · change ((index : Int) + 1).toNat ≤ (d.ht0.table.set index []).length
      rw [length_set]
      omega
    · intro bucket below
      have below : bucket < index + 1 := by
        change bucket < ((index : Int) + 1).toNat at below
        omega
      rw [getElem?_set]
      split
      · rfl
      · exact empty bucket (by omega)

/-- A step that only moves entries keeps the invariant and the entries. -/
def Dict.Kept (type : DictType K) (d next : Dict K V) : Prop := next.Invariant type ∧ next.entries.Perm d.entries

theorem Dict.Kept.refl (invariant : d.Invariant type) : d.Kept type d := ⟨invariant, List.Perm.refl _⟩

theorem Dict.Kept.trans {next last : Dict K V} (first : d.Kept type next)
    (second : next.Kept type last) : d.Kept type last :=
  ⟨second.1, second.2.trans first.2⟩

/-- While table 0 counts entries, some bucket from `rehashidx` on holds one. -/
theorem Dict.Rehashing.drop_ne_nil (invariant : d.Invariant type) (active : d.Rehashing)
    (inhabited : d.ht0.used ≠ 0) : (d.ht0.table.drop d.rehashidx.toNat).flatten ≠ [] := by
  intro empty
  apply inhabited
  rw [invariant.table0.counted, length_eq_zero_iff, flatten_eq_nil_iff]
  intro chain member
  obtain ⟨bucket, found⟩ := getElem?_of_mem member
  by_cases below : bucket < d.rehashidx.toNat
  · rw [active.emptied bucket below] at found
    exact (Option.some.inj found).symm
  · rw [← Nat.add_sub_cancel' (not_lt.mp below), ← getElem?_drop] at found
    exact flatten_eq_nil_iff.mp empty chain (mem_of_getElem? found)

theorem Dict.Kept.set_rehashidx (invariant : d.Invariant type) (active : d.Rehashing)
    (index : Nat) (within : index ≤ d.ht0.table.length)
    (empty : ∀ bucket < index, d.ht0.table[bucket]? = some []) :
    d.Kept type { d with rehashidx := index } ∧ ({ d with rehashidx := index } : Dict K V).Rehashing := by
  have next : ({ d with rehashidx := (index : Int) } : Dict K V).Rehashing :=
    ⟨active.present0, active.present1, active.resized, Int.natCast_nonneg _, by simpa using within,
      by simpa using empty⟩
  refine ⟨⟨⟨invariant.table0, invariant.table1, invariant.distinct, ?_, fun _ => next⟩, List.Perm.refl _⟩, next⟩
  intro idle
  exact absurd (show (index : Int) ≠ -1 by omega) idle

/-- The outer loop keeps all entries for every number of steps. -/
theorem rehashLoop_spec (n : Nat) (d : Dict K V) (visits : BitVec 32)
    (invariant : d.Invariant type) (active : d.Rehashing) :
    ∃ next early, rehashLoop type n d visits = .ok (next, early) ∧ d.Kept type next ∧ next.Rehashing := by
  induction n generalizing d visits with
  | zero => exact ⟨d, false, rfl, .refl invariant, active⟩
  | succ n ih =>
    by_cases none : d.ht0.used = 0
    · exact ⟨d, false, by simp only [rehashLoop, if_pos none], .refl invariant, active⟩
    · have inhabited := active.drop_ne_nil invariant none
      have bound : dicthtSize d.ht0.sizeExp > d.rehashidx.toNat := by
        rw [← invariant.table0.length_table]
        by_contra beyond
        exact inhabited (by rw [drop_eq_nil_of_le (by omega)]; rfl)
      obtain ⟨skipped, visits', stopped, result, empty, within, found⟩ :=
        skipEmptyBuckets_spec (d.ht0.table.drop d.rehashidx.toNat) d.rehashidx.toNat visits inhabited
      have emptied : ∀ bucket < d.rehashidx.toNat + skipped, d.ht0.table[bucket]? = some [] := by
        intro bucket below
        by_cases old : bucket < d.rehashidx.toNat
        · exact active.emptied bucket old
        · rw [← Nat.add_sub_cancel' (not_lt.mp old), ← getElem?_drop]
          exact empty _ (by omega)
      rw [length_drop] at within
      simp only [rehashLoop, if_neg none, require_of bound, result]
      cases stopped with
      | true =>
        obtain ⟨kept, next⟩ := Dict.Kept.set_rehashidx invariant active
          (d.rehashidx.toNat + skipped) (by have := active.upper; omega) emptied
        exact ⟨_, true, rfl, kept, next⟩
      | false =>
        obtain ⟨entry, chain, read⟩ := found rfl
        rw [getElem?_drop] at read
        obtain ⟨ht1, moved, valid, same, grown⟩ := moveChain_spec
          (d.rehashidx.toNat + skipped) (entry :: chain) d invariant.table1 active.present1
          fun other member => rehashTarget_eq invariant active read member
        obtain ⟨next, entries⟩ := moveBucket_invariant invariant active read emptied valid same grown
        obtain ⟨last, early, looped, kept, active'⟩ := ih _ visits' next
          (next.active (show ((d.rehashidx.toNat + skipped : Nat) : Int) + 1 ≠ -1 by omega))
        refine ⟨last, early, ?_, Dict.Kept.trans ⟨next, entries⟩ kept, active'⟩
        simp only [readCell_of read, ok_bind, moved]
        exact looped

/-- The finished table replaces the old one only when the old one is empty. -/
theorem rehashFinish_kept (invariant : d.Invariant type) : d.Kept type (rehashFinish d).1 := by
  rw [rehashFinish]
  split
  · rename_i none
    have empty : d.ht0.table.flatten = [] := length_eq_zero_iff.mp (invariant.table0.counted.symm.trans none)
    have entries : ({ d with ht0 := d.ht1, ht1 := dictReset, rehashidx := -1 } : Dict K V).entries = d.entries := by
      simp [Dict.entries, dictReset, empty]
    exact ⟨⟨invariant.table1, HashTable.wellFormed_dictReset type, entries ▸ invariant.distinct,
      fun _ => rfl, fun rehashing => absurd rfl rehashing⟩, entries ▸ List.Perm.refl _⟩
  · exact .refl invariant

variable (mode : DictResizeEnable)

theorem dictRehash_spec (n : Nat) (invariant : d.Invariant type) :
    ∃ next more, dictRehash type mode d n = .ok (next, more) ∧ d.Kept type next := by
  unfold dictRehash
  split
  · exact ⟨d, false, rfl, .refl invariant⟩
  · rename_i enabled
    dsimp only
    split
    · exact ⟨d, false, rfl, .refl invariant⟩
    · have rehashing : dictIsRehashing d := by
        by_contra idle
        exact enabled (.inr idle)
      obtain ⟨next, early, looped, kept, _⟩ := rehashLoop_spec n d (BitVec.ofNat 32 (n * 10))
        invariant (invariant.active rehashing)
      simp only [looped]
      cases early with
      | true => exact ⟨next, true, rfl, kept⟩
      | false => exact ⟨_, _, rfl, kept.trans (rehashFinish_kept kept.1)⟩

theorem dictRehashStep_spec (invariant : d.Invariant type) :
    ∃ next, dictRehashStep type mode d = .ok next ∧ d.Kept type next := by
  unfold dictRehashStep
  split
  · obtain ⟨next, more, result, kept⟩ := dictRehash_spec mode 1 invariant
    exact ⟨next, by simp only [result]; rfl, kept⟩
  · exact ⟨d, rfl, .refl invariant⟩

/-- The overflow check admits exponents up to sixty. -/
theorem exp_le_of_no_overflow {exp : Nat} (fits : ¬ 2 ^ exp * 8 % 2 ^ 64 < 2 ^ exp) : exp ≤ 60 := by
  by_contra large
  apply fits
  have zero : 2 ^ exp * 8 % 2 ^ 64 = 0 := by
    rw [show (8 : Nat) = 2 ^ 3 by norm_num, ← pow_add]
    exact Nat.mod_eq_zero_of_dvd (pow_dvd_pow 2 (by omega))
  rw [zero]
  exact Nat.two_pow_pos exp

/-- An expansion creates the first table or starts rehashing to a table of another size. -/
theorem dictExpand_kept (size : Nat) (invariant : d.Invariant type) : d.Kept type (dictExpand d size).1 := by
  unfold dictExpand
  split
  · exact .refl invariant
  · rename_i allowed
    have idle : ¬ dictIsRehashing d := fun rehashing => allowed (.inl rehashing)
    have absent1 := invariant.table1.table_eq_nil_iff.mpr (invariant.idle idle)
    dsimp only
    split
    · exact .refl invariant
    · rename_i room
      have fits := exp_le_of_no_overflow fun overflow => room (.inr overflow)
      have fresh := HashTable.wellFormed_replicate (V := V) type fits
      split
      · exact .refl invariant
      · rename_i other
        split
        · rename_i first
          have entries : ({ d with
              ht0 := ⟨List.replicate (2 ^ dictNextExp size) [], 0, dictNextExp size⟩ } :
              Dict K V).entries = d.entries := by
            simp [Dict.entries, first]
          exact ⟨⟨fresh, invariant.table1, entries ▸ invariant.distinct, invariant.idle,
            fun rehashing => absurd rehashing idle⟩, entries ▸ List.Perm.refl _⟩
        · rename_i present
          have entries : ({ d with
              ht1 := ⟨List.replicate (2 ^ dictNextExp size) [], 0, dictNextExp size⟩
              rehashidx := 0 } : Dict K V).entries = d.entries := by
            simp [Dict.entries, absent1]
          refine ⟨⟨invariant.table0, fresh, entries ▸ invariant.distinct, fun idle' => ?_,
            fun _ => ⟨?_, ?_, ?_, le_refl 0, Nat.zero_le _, ?_⟩⟩, entries ▸ List.Perm.refl _⟩
          · exact absurd (show (0 : Int) ≠ -1 by decide) idle'
          · exact fun absent => present (invariant.table0.table_eq_nil_iff.mpr absent)
          · change ((dictNextExp size : Nat) : Int) ≠ -1
            omega
          · exact fun equal => other equal.symm
          · intro bucket below
            simp at below

theorem dictResize_kept (invariant : d.Invariant type) : d.Kept type (dictResize mode d).1 := by
  unfold dictResize
  split
  · exact .refl invariant
  · exact dictExpand_kept _ invariant

end Redis.Dictionary

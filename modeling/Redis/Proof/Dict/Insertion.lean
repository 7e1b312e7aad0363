import Redis.Proof.Dict.Lookup

namespace Redis.Dictionary
open Foundation
variable {K V : Type} {type : DictType K} {d : Dict K V}

/-- The rounded exponent covers the requested size and stays below the overflow check. -/
theorem dictNextExp_spec {size : Nat} (fits : size ≤ 2 ^ 60) :
    size ≤ 2 ^ dictNextExp size ∧ dictNextExp size ≤ 60 := by
  unfold dictNextExp
  split
  · rename_i small
    exact ⟨small, by decide⟩
  · rename_i large
    have nonzero : size - 1 ≠ 0 := by
      simp only [dictHtInitialSize, dictHtInitialExp] at large
      omega
    rw [if_neg (by omega)]
    have lower : size - 1 < 2 ^ ((size - 1).log2 + 1) := Nat.lt_log2_self
    have upper : (size - 1).log2 < 60 := (Nat.log2_lt nonzero).mpr (by omega)
    omega

theorem no_overflow_of_exp_le {exp : Nat} (fits : exp ≤ 60) : ¬ 2 ^ exp * 8 % 2 ^ 64 < 2 ^ exp := by
  have product : 2 ^ exp * 8 = 2 ^ (exp + 3) := by rw [pow_add]; rfl
  have small : 2 ^ (exp + 3) < 2 ^ 64 := Nat.pow_lt_pow_right (by decide) (by omega)
  omega

theorem dictExpand_succeeds {size : Nat} (invariant : d.Invariant type) (idle : ¬ dictIsRehashing d)
    (room : d.ht0.used ≤ size) (fits : size ≤ 2 ^ 60) (other : (dictNextExp size : Int) ≠ d.ht0.sizeExp) :
    (dictExpand d size).2 = true ∧ d.Kept type (dictExpand d size).1 ∧ (dictExpand d size).1.ht0.sizeExp ≠ -1 := by
  obtain ⟨covers, small⟩ := dictNextExp_spec fits
  have enough : ¬ (2 ^ dictNextExp size < size ∨ 2 ^ dictNextExp size * 8 % 2 ^ 64 < 2 ^ dictNextExp size) := by
    rintro (short | overflow)
    · omega
    · exact no_overflow_of_exp_le small overflow
  refine and_left_comm.mp ⟨dictExpand_kept size invariant, ?_⟩
  unfold dictExpand
  rw [if_neg (by rintro (rehashing | short); exacts [idle rehashing, by omega]), if_neg enough, if_neg other]
  split
  · exact ⟨rfl, show ((dictNextExp size : Nat) : Int) ≠ -1 by omega⟩
  · rename_i present
    exact ⟨rfl, mt invariant.table0.table_eq_nil_iff.mpr present⟩

/-- All entries fit in the address space. -/
def Dict.Fits (d : Dict K V) : Prop := dictSize d * dictEntryBytes ≤ 2 ^ 64

theorem Dict.Kept.fits {next : Dict K V} (kept : d.Kept type next) (invariant : d.Invariant type)
    (fits : d.Fits) : next.Fits := by
  unfold Dict.Fits at *
  rwa [kept.1.dictSize_eq, kept.2.length_eq, ← invariant.dictSize_eq]

/-- An insertion always finds a table, because the used buckets fit in memory. -/
theorem dictExpandIfNeeded_spec (mode : DictResizeEnable) (invariant : d.Invariant type) (fits : d.Fits) :
    (dictExpandIfNeeded type mode d).2 = true ∧ d.Kept type (dictExpandIfNeeded type mode d).1 ∧
      (dictExpandIfNeeded type mode d).1.ht0.sizeExp ≠ -1 := by
  have used : d.ht0.used + 1 ≤ 2 ^ 60 := by
    simp only [Dict.Fits, dictSize, dictEntryBytes] at fits
    omega
  unfold dictExpandIfNeeded
  dsimp only
  split
  · rename_i rehashing
    exact ⟨rfl, .refl invariant, (invariant.active rehashing).present0⟩
  · rename_i idle
    split
    · rename_i absent
      have empty : d.ht0.table = [] := by
        rw [← List.length_eq_zero_iff, invariant.table0.length_table, absent]
      have exp := invariant.table0.table_eq_nil_iff.mp empty
      have unused : d.ht0.used = 0 := by rw [invariant.table0.counted, empty]; rfl
      exact dictExpand_succeeds invariant idle (unused ▸ Nat.zero_le _) (by decide) (by rw [exp]; decide)
    · rename_i sized
      have present : d.ht0.sizeExp ≠ -1 := by
        intro absent
        exact sized (by rw [absent]; rfl)
      split
      · rename_i full
        split
        · obtain ⟨exp, _, same, length⟩ := invariant.table0.exists_exp present
          have full : dicthtSize d.ht0.sizeExp ≤ d.ht0.used := by
            rcases full with ⟨_, full⟩ | ⟨_, ratio⟩
            · exact full
            · by_contra short
              rw [Nat.div_eq_of_lt (by omega)] at ratio
              exact absurd ratio (by decide)
          have grows : (dictNextExp (d.ht0.used + 1) : Int) ≠ d.ht0.sizeExp := by
            intro equal
            rw [same, Int.natCast_inj] at equal
            have covers := (dictNextExp_spec used).1
            rw [equal, ← dicthtSize_natCast, ← same] at covers
            omega
          exact dictExpand_succeeds invariant idle (Nat.le_succ _) used grows
        · exact ⟨rfl, .refl invariant, present⟩
      · exact ⟨rfl, .refl invariant, present⟩

section Insertion
variable [DecidableEq K]

/-- The search for an insertion ends at the existing entry or at the bucket of the new key. -/
theorem dictFindPositionForInsert_spec (mode : DictResizeEnable) (invariant : d.Invariant type)
    (fits : d.Fits) (key : K) :
    ∃ next position, dictFindPositionForInsert type mode d key = .ok (next, position) ∧ d.Kept type next ∧
      (∃ stepped, dictRehashStep type mode d = .ok stepped ∧ next = (dictExpandIfNeeded type mode stepped).1) ∧
      ((∃ link val, position = .existing link ∧ next.LinkedAt link key val) ∨
        ((∀ val, (key, val) ∉ next.entries) ∧ next.ht0.sizeExp ≠ -1 ∧ position = .bucket (bucketIndex type
            (next.tableAt (if dictIsRehashing next then 1 else 0)).sizeExp key))) := by
  obtain ⟨stepped, step, kept⟩ := dictRehashStep_spec mode invariant
  obtain ⟨expanded, kept', present⟩ := dictExpandIfNeeded_spec mode kept.1 (kept.fits invariant fits)
  obtain ⟨found, search, result⟩ := searchTables_spec kept'.1 present key
  unfold dictFindPositionForInsert
  simp only [step, ok_bind, expanded, search]
  cases found with
  | some found =>
    exact ⟨_, _, rfl, kept.trans kept', ⟨stepped, rfl, rfl⟩, .inl ⟨found.1, found.2, rfl, result⟩⟩
  | none =>
    exact ⟨_, _, rfl, kept.trans kept', ⟨stepped, rfl, rfl⟩, .inr ⟨result, present, rfl⟩⟩

omit [DecidableEq K] in
/-- An insertion adds the new entry or exhausts the address space. -/
theorem dictInsertAtPosition_spec (invariant : d.Invariant type) (present : d.ht0.sizeExp ≠ -1)
    (key : K) (val : V) (absent : ∀ val, (key, val) ∉ d.entries) :
    Outcome (dictInsertAtPosition d key val (bucketIndex type
        (d.tableAt (if dictIsRehashing d then 1 else 0)).sizeExp key)) (· = .outOfMemory)
      fun next => next.Invariant type ∧ next.Fits ∧ next.entries.Perm ((key, val) :: d.entries) ∧
        ∃ index bucket chain used, (d.tableAt index).table[bucket]? = some chain ∧
          next = d.setChain index bucket ((key, val) :: chain) used := by
  have target : (d.tableAt (if dictIsRehashing d then 1 else 0)).sizeExp ≠ -1 := by
    split
    · rename_i rehashing
      exact (invariant.active rehashing).present1
    · exact present
  have idle : (if dictIsRehashing d then (1 : Fin 2) else 0) = 0 → ¬ dictIsRehashing d := by
    split
    · intro equal
      simp at equal
    · intro _
      assumption
  unfold dictInsertAtPosition
  dsimp only
  generalize (if dictIsRehashing d then (1 : Fin 2) else 0) = index at *
  have valid := invariant.tableAt index
  obtain ⟨chain, read, pushed, pushes, push, valid', grown⟩ := pushEntry_spec valid target (key, val)
  obtain ⟨exp, small, sized, length⟩ := valid.exists_exp target
  have within : bucketIndex type (d.tableAt index).sizeExp key ≤
      (dicthtSizeMask (d.tableAt index).sizeExp).toNat := by
    rw [bucketIndex, BitVec.toNat_and]
    exact Nat.and_le_right
  rw [require_of within, ok_bind]
  split
  · rfl
  · rename_i room
    rw [push, ok_bind]
    obtain ⟨other, before, after⟩ := d.setTable_entries index pushed [] [(key, val)]
      (List.Perm.refl _) grown
    have entries : (d.setTable index pushed).entries.Perm ((key, val) :: d.entries) :=
      after.trans (List.Perm.cons _ before.symm)
    have next : (d.setTable index pushed).Invariant type := by
      refine invariant.setTable valid' (by rw [pushes]) ?_ ?_
      · rw [(entries.map Prod.fst).nodup_iff, List.map_cons, List.nodup_cons]
        refine ⟨?_, invariant.distinct⟩
        intro member
        obtain ⟨⟨_, old⟩, inside, rfl⟩ := List.mem_map.mp member
        exact absent old inside
      · intro first rehashing
        exact absurd rehashing (idle first)
    refine ⟨next, ?_, entries, index, _, chain, _, read, by rw [pushes]; rfl⟩
    rw [Dict.Fits, next.dictSize_eq, entries.length_eq, List.length_cons, ← invariant.dictSize_eq]
    omega
end Insertion
end Redis.Dictionary

import Redis.Construction.DictIterator
import Redis.Proof.Dict.Refinement

namespace Redis.Dictionary
open Foundation List
variable {K V : Type} {type : DictType K} {d : Dict K V} {iter : DictIterator K V}

/-- The buckets that an iterator at a bucket has not reached. -/
def bucketsAhead (d : Dict K V) (table : Fin 2) (index : Int) : List (List (K × V)) :=
  (d.tableAt table).table.drop (index + 1).toNat ++ if table = 0 then d.ht1.table else []

/-- The entries that an iterator has not returned. -/
def entriesAhead (d : Dict K V) (iter : DictIterator K V) : List (K × V) :=
  (if iter.entry.isNone then [] else iter.nextEntry) ++ (bucketsAhead d iter.table iter.index).flatten

theorem entriesAhead_dictGetIterator (d : Dict K V) : entriesAhead d dictGetIterator = d.entries := by
  simp [entriesAhead, bucketsAhead, dictGetIterator, Dict.entries, Dict.tableAt]

variable (invariant : d.Invariant type)
include invariant
theorem nextBucket_spec (started : -1 ≤ iter.index) :
    (bucketsAhead d iter.table iter.index = [] ∧ nextBucket d iter = .ok none) ∨
      ∃ next, nextBucket d iter = .ok (some next) ∧ -1 ≤ next.index ∧
        bucketsAhead d iter.table iter.index = next.nextEntry :: bucketsAhead d next.table next.index := by
  have valid := invariant.tableAt iter.table
  have length := valid.length_table
  rw [nextBucket]
  by_cases inside : iter.index + 1 < dicthtSize (d.tableAt iter.table).sizeExp
  · rw [if_pos inside]
    have bound : (iter.index + 1).toNat < (d.tableAt iter.table).table.length := by omega
    have cell := getElem?_eq_getElem bound
    refine .inr ⟨⟨iter.table, iter.index + 1, none, (d.tableAt iter.table).table[(iter.index + 1).toNat]⟩, ?_, ?_, ?_⟩
    · rw [readCell_of cell]
      rfl
    · simp only
      omega
    · rw [bucketsAhead, drop_eq_getElem_cons bound, cons_append, bucketsAhead]
      rw [show (iter.index + 1 + 1).toNat = (iter.index + 1).toNat + 1 by omega]
  · rw [if_neg inside]
    have done : (d.tableAt iter.table).table.drop (iter.index + 1).toNat = [] := drop_eq_nil_of_le (by omega)
    by_cases second : dictIsRehashing d ∧ iter.table = 0
    · rw [if_pos second]
      have present := (invariant.active second.1).present1
      have nonempty : d.ht1.table ≠ [] := fun empty => present (invariant.table1.table_eq_nil_iff.mp empty)
      obtain ⟨chain, rest, split⟩ := exists_cons_of_ne_nil nonempty
      have cell : d.ht1.table[0]? = some chain := by rw [split]; rfl
      refine .inr ⟨⟨1, 0, none, chain⟩, ?_, by simp, ?_⟩
      · rw [readCell_of cell]
        rfl
      · rw [bucketsAhead, done, if_pos second.2]
        simp [bucketsAhead, Dict.tableAt, split]
    · rw [if_neg second]
      refine .inl ⟨?_, rfl⟩
      rw [bucketsAhead, done]
      split
      · rename_i first
        exact invariant.table1.table_eq_nil_iff.mpr (invariant.idle fun rehashing => second ⟨rehashing, first⟩)
      · rfl

theorem nextLoop_spec (started : -1 ≤ iter.index) {fuel : Nat}
    (fueled : (bucketsAhead d iter.table iter.index).length + (if iter.entry.isNone then 1 else 2) ≤ fuel) :
    (entriesAhead d iter = [] ∧ nextLoop d fuel iter = .ok none) ∨
      ∃ entry rest next, entriesAhead d iter = entry :: rest ∧ nextLoop d fuel iter = .ok (some (entry, next)) ∧
        entriesAhead d next = rest ∧ -1 ≤ next.index := by
  induction fuel generalizing iter with
  | zero => split at fueled <;> omega
  | succ fuel ih =>
    rw [nextLoop]
    cases current : iter.entry with
    | none =>
      rw [current] at fueled
      rw [entriesAhead, current]
      rcases nextBucket_spec invariant started with ⟨none, ended⟩ | ⟨next, reached, started', split⟩
      · rw [none, ended]
        exact .inl ⟨rfl, rfl⟩
      · rw [split] at fueled
        rw [split, reached]
        obtain ⟨table, index, _, chain⟩ := next
        cases chain with
        | nil =>
          have enough : (bucketsAhead d table index).length + 1 ≤ fuel := Nat.le_of_succ_le_succ fueled
          exact @ih ⟨table, index, none, []⟩ started' enough
        | cons entry rest => exact .inr ⟨entry, _, _, rfl, rfl, rfl, started'⟩
    | some entry =>
      rw [current] at fueled
      rw [Option.isNone_some, if_neg Bool.false_ne_true, entriesAhead, current, Option.isNone_some,
        if_neg Bool.false_ne_true]
      obtain ⟨table, index, _, chain⟩ := iter
      cases chain with
      | nil =>
        have enough : (bucketsAhead d table index).length + 1 ≤ fuel := Nat.le_of_succ_le_succ fueled
        exact @ih ⟨table, index, none, []⟩ started enough
      | cons entry rest => exact .inr ⟨entry, _, _, rfl, rfl, rfl, started⟩

theorem dictNext_spec (started : -1 ≤ iter.index) : (entriesAhead d iter = [] ∧ dictNext d iter = .ok none) ∨
      ∃ entry rest next, entriesAhead d iter = entry :: rest ∧ dictNext d iter = .ok (some (entry, next)) ∧
        entriesAhead d next = rest ∧ -1 ≤ next.index := by
  refine nextLoop_spec invariant started ?_
  have length0 := invariant.table0.length_table
  have length1 := invariant.table1.length_table
  have slots : (bucketsAhead d iter.table iter.index).length ≤ dictSlots d := by
    rw [bucketsAhead, dictSlots, length_append, length_drop]
    rcases iter.table with ⟨_ | _ | _, _⟩
    · simp only [Dict.tableAt, Fin.zero_eta, if_true]
      omega
    · simp [Dict.tableAt]
      omega
    · omega
  split <;> omega

omit invariant

theorem rehashSteps_kept (mode : DictResizeEnable) (count : Nat) (invariant : d.Invariant type) :
    ∃ next, rehashSteps type mode count d = .ok next ∧ d.Kept type next := by
  induction count generalizing d with
  | zero => exact ⟨d, rfl, .refl invariant⟩
  | succ count ih =>
    rw [rehashSteps]
    split
    · obtain ⟨next, stepped, kept⟩ := dictRehashStep_spec mode invariant
      obtain ⟨last, ran, kept'⟩ := ih kept.1
      rw [stepped]
      exact ⟨last, ran, kept.trans kept'⟩
    · exact ⟨d, rfl, .refl invariant⟩

theorem dictGetFairRandomKey_spec (mode : DictResizeEnable) (choice : DictChoice) (invariant : d.Invariant type)
    (inhabited : dictSize d ≠ 0) :
    ∃ next entry, dictGetFairRandomKey type mode d choice = .ok (next, some entry) ∧ d.Kept type next ∧
      entry ∈ next.entries := by
  obtain ⟨first, ran, kept⟩ := rehashSteps_kept mode (min (dictSize d) getfairNumEntries) invariant
  have second : ∃ next, (if choice.unlucky ∧ dictSize first ≠ 0 then dictRehashStep type mode first else return first) =
      Except.ok next ∧ d.Kept type next := by
    split
    · obtain ⟨next, stepped, kept'⟩ := dictRehashStep_spec mode kept.1
      exact ⟨next, stepped, kept.trans kept'⟩
    · exact ⟨first, rfl, kept⟩
  obtain ⟨next, ran', kept'⟩ := second
  have positive : 0 < next.entries.length := by
    rw [kept'.2.length_eq, ← invariant.dictSize_eq]
    omega
  have found := getElem?_eq_getElem (Nat.mod_lt choice.position positive)
  refine ⟨next, _, ?_, kept', mem_of_getElem? found⟩
  rw [dictGetFairRandomKey, ran, ok_bind, ran']
  exact congrArg (fun entry => Except.ok (next, entry)) found

end Redis.Dictionary

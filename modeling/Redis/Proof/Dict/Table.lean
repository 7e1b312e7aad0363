import Redis.Construction.Dict

namespace Redis.Dictionary
open Foundation List
variable {K V A : Type} {table : List (List A)} {chain : List A} {bucket exp : Nat}

theorem flatten_perm_set (found : table[bucket]? = some chain) :
    table.flatten.Perm (chain ++ (table.set bucket []).flatten) := by
  induction table generalizing bucket with
  | nil => simp at found
  | cons head rest ih =>
    cases bucket with
    | zero =>
      obtain rfl : head = chain := by simpa using found
      simp
    | succ bucket =>
      have tail := (ih (by simpa using found)).append_left head
      simp only [flatten_cons, set_cons_succ]
      exact tail.trans (by
        simpa only [append_assoc] using perm_append_comm.append_right _)

theorem flatten_set_perm (found : table[bucket]? = some chain) (updated : List A) :
    (table.set bucket updated).flatten.Perm (updated ++ (table.set bucket []).flatten) := by
  have inside : bucket < table.length := (List.getElem?_eq_some_iff.mp found).1
  have read : (table.set bucket updated)[bucket]? = some updated := by simp [inside]
  simpa only [set_set] using flatten_perm_set read

theorem dicthtSize_natCast (exp : Nat) : dicthtSize (exp : Int) = 2 ^ exp := by
  exact if_neg (by omega)

theorem and_dicthtSizeMask (word : Word) (fits : exp ≤ 63) :
    (word &&& dicthtSizeMask (exp : Int)).toNat = word.toNat % 2 ^ exp := by
  have small : 2 ^ exp - 1 < 2 ^ 64 :=
    lt_of_lt_of_le (Nat.sub_lt (Nat.two_pow_pos exp) one_pos)
      (Nat.pow_le_pow_right (by decide) (by omega))
  rw [dicthtSizeMask, if_neg (by omega), dicthtSize_natCast, BitVec.toNat_and,
    BitVec.toNat_ofNat, Nat.mod_eq_of_lt small, Nat.and_two_pow_sub_one_eq_mod]

/-- A table has no buckets, or a power of two of them, and each entry is in its bucket. -/
structure HashTable.WellFormed (type : DictType K) (ht : HashTable K V) : Prop where
  shape : (ht.sizeExp = -1 ∧ ht.table = []) ∨ ∃ exp : Nat, exp ≤ 60 ∧ ht.sizeExp = exp ∧ ht.table.length = 2 ^ exp
  counted : ht.used = ht.table.flatten.length
  placed : ∀ bucket chain, ht.table[bucket]? = some chain →
    ∀ entry ∈ chain, bucketIndex type ht.sizeExp entry.1 = bucket

theorem HashTable.wellFormed_dictReset (type : DictType K) : (dictReset : HashTable K V).WellFormed type where
  shape := .inl ⟨rfl, rfl⟩
  counted := rfl
  placed := by simp [dictReset]

theorem HashTable.wellFormed_replicate (type : DictType K) (fits : exp ≤ 60) :
    (⟨List.replicate (2 ^ exp) [], 0, exp⟩ : HashTable K V).WellFormed type where
  shape := .inr ⟨exp, fits, rfl, length_replicate⟩
  counted := by simp
  placed := by
    intro bucket chain found entry member
    simp only [getElem?_replicate] at found
    split at found
    · cases found
      simp at member
    · simp at found

section WellFormed
variable {type : DictType K} {ht : HashTable K V}
variable (valid : ht.WellFormed type)
include valid
theorem HashTable.WellFormed.exists_exp (present : ht.sizeExp ≠ -1) :
    ∃ exp : Nat, exp ≤ 60 ∧ ht.sizeExp = exp ∧ ht.table.length = 2 ^ exp := by
  rcases valid.shape with ⟨absent, _⟩ | shape
  · exact absurd absent present
  · exact shape

theorem HashTable.WellFormed.length_table : ht.table.length = dicthtSize ht.sizeExp := by
  rcases valid.shape with ⟨absent, empty⟩ | ⟨exp, _, same, length⟩
  · simp [absent, empty, dicthtSize]
  · rw [same, dicthtSize_natCast, length]

theorem HashTable.WellFormed.table_eq_nil_iff : ht.table = [] ↔ ht.sizeExp = -1 := by
  constructor
  · intro empty
    by_contra present
    obtain ⟨exp, _, _, length⟩ := valid.exists_exp present
    rw [empty] at length
    exact (Nat.two_pow_pos exp).ne length
  · intro absent
    rcases valid.shape with ⟨_, empty⟩ | ⟨exp, _, same, _⟩
    · exact empty
    · omega

theorem HashTable.WellFormed.bucketIndex_eq_mod (present : ht.sizeExp ≠ -1) (key : K) :
    bucketIndex type ht.sizeExp key = (type.hashFunction key).toNat % ht.table.length := by
  obtain ⟨exp, fits, same, length⟩ := valid.exists_exp present
  rw [bucketIndex, same, length, and_dicthtSizeMask _ (by omega)]

theorem HashTable.WellFormed.read_bucket (present : ht.sizeExp ≠ -1) (key : K) :
    ∃ chain, ht.table[bucketIndex type ht.sizeExp key]? = some chain := by
  have positive : 0 < ht.table.length := by
    obtain ⟨exp, _, _, length⟩ := valid.exists_exp present
    exact length ▸ Nat.two_pow_pos exp
  rw [valid.bucketIndex_eq_mod present]
  exact ⟨_, getElem?_eq_getElem (Nat.mod_lt _ positive)⟩

theorem HashTable.WellFormed.mem_bucket {entry : K × V} (member : entry ∈ ht.table.flatten) :
    ∃ chain, ht.table[bucketIndex type ht.sizeExp entry.1]? = some chain ∧ entry ∈ chain := by
  obtain ⟨chain, inside, member⟩ := mem_flatten.mp member
  obtain ⟨bucket, found⟩ := getElem?_of_mem inside
  rw [valid.placed bucket chain found entry member]
  exact ⟨chain, found, member⟩

theorem HashTable.WellFormed.set_chain {used : Nat} {chain : List (K × V)}
    (placed : ∀ entry ∈ chain, bucketIndex type ht.sizeExp entry.1 = bucket)
    (counted : used = (ht.table.set bucket chain).flatten.length) :
    (⟨ht.table.set bucket chain, used, ht.sizeExp⟩ : HashTable K V).WellFormed type where
  shape := by
    rcases valid.shape with ⟨absent, empty⟩ | ⟨exp, fits, same, length⟩
    · exact .inl ⟨absent, by simp [empty]⟩
    · exact .inr ⟨exp, fits, same, by simpa using length⟩
  counted := counted
  placed := by
    intro index found read entry member
    rw [getElem?_set] at read
    split at read
    · rename_i same
      subst same
      split at read
      · cases read
        exact placed entry member
      · simp at read
    · exact valid.placed index found read entry member

theorem pushEntry_spec (present : ht.sizeExp ≠ -1) (entry : K × V) :
    ∃ chain, ht.table[bucketIndex type ht.sizeExp entry.1]? = some chain ∧ ∃ pushed,
      pushed = ⟨ht.table.set (bucketIndex type ht.sizeExp entry.1) (entry :: chain), ht.used + 1, ht.sizeExp⟩ ∧
      pushEntry ht (bucketIndex type ht.sizeExp entry.1) entry = .ok pushed ∧
      pushed.WellFormed type ∧ pushed.table.flatten.Perm (entry :: ht.table.flatten) := by
  obtain ⟨chain, found⟩ := valid.read_bucket present entry.1
  have grown : (ht.table.set (bucketIndex type ht.sizeExp entry.1) (entry :: chain)).flatten.Perm
      (entry :: ht.table.flatten) :=
    (flatten_set_perm found _).trans ((flatten_perm_set found).symm.cons entry)
  refine ⟨chain, found, _, rfl, by simp only [pushEntry, readCell_of found]; rfl, ?_, grown⟩
  refine valid.set_chain ?_ ?_
  · intro other member
    rcases mem_cons.mp member with rfl | member
    · rfl
    · exact valid.placed _ _ found other member
  · rw [grown.length_eq, length_cons, valid.counted]
end WellFormed
end Redis.Dictionary

import Redis.Proof.Intset.Update

namespace Redis.IntegerSet
open Foundation List
variable {is : Intset} {values : List Int} {members : Finset Int}

def setStep (members : Finset Int) : IntsetOp → Finset Int × Bool
  | .add value => (insert value.toInt members, decide (value.toInt ∉ members))
  | .remove value => (members.erase value.toInt, decide (value.toInt ∈ members))
  | .find value => (members, decide (value.toInt ∈ members))

/-- The bytes of the members after the value, which an insertion or a removal must move. -/
def tailBytes (is : Intset) : IntsetOp → Nat
  | .add value =>
    if (intsetValueEncoding value.toInt).size > is.encoding.size then 0
    else match intsetSearch is value.toInt with
      | .ok (false, pos) => (is.length - pos) * is.encoding.size
      | _ => 0
  | .remove value =>
    if (intsetValueEncoding value.toInt).size > is.encoding.size then 0
    else match intsetSearch is value.toInt with
      | .ok (true, pos) => (is.length - (pos + 1)) * is.encoding.size
      | _ => 0
  | .find _ => 0

/-- The set has fewer than `2 ^ 31` members, and the bytes to move fit in a `uint32_t`. -/
def MoveFits (is : Intset) (op : IntsetOp) : Prop := is.length < 2 ^ 31 ∧ tailBytes is op < 2 ^ 32

instance (is : Intset) (op : IntsetOp) : Decidable (MoveFits is op) :=
  inferInstanceAs (Decidable (_ ∧ _))

/-- An intset stores the members of a set in increasing order. -/
def Models (is : Intset) (members : Finset Int) : Prop :=
  ∃ values : List Int, Stores is values ∧ values.Pairwise (· < ·) ∧ values.length ≤ 2 ^ 31 ∧
    ∀ value, value ∈ values ↔ value ∈ members

theorem models_intsetNew : Models intsetNew ∅ := ⟨[], ⟨rfl, rfl, by simp⟩, List.Pairwise.nil, by simp, by simp⟩

theorem not_mem_of_wider {value : Int64} (stores : Stores is values)
    (wider : (intsetValueEncoding value.toInt).size > is.encoding.size) : value.toInt ∉ values := by
  intro member
  have holds := (holds_iff value.le_toInt value.toInt_lt).mp (stores.holds _ member)
  omega

theorem intsetFind_eq (value : Int64) (stores : Stores is values) (sorted : values.Pairwise (· < ·))
    (bounded : values.length < 2 ^ 31) :
    intsetFind is value.toInt = .ok (decide (value.toInt ∈ values)) := by
  rw [intsetFind]
  split
  · rename_i wider
    rw [decide_eq_false (not_mem_of_wider stores wider)]
    rfl
  · rcases intsetSearch_parts stores sorted bounded value.toInt with
      ⟨front, back, rfl, searched⟩ | ⟨front, back, rfl, searched, smaller, greater⟩
    · rw [searched, decide_eq_true (mem_append_right front mem_cons_self)]
      rfl
    · rw [searched, decide_eq_false (notMem_parts smaller greater)]
      rfl

theorem intsetAdd_models {value : Int64} (models : Models is members) (fits : MoveFits is (.add value)) :
    ∃ next, intsetAdd is value.toInt = .ok (next, decide (value.toInt ∉ members)) ∧
      Models next (insert value.toInt members) ∧ is.encoding.size ≤ next.encoding.size := by
  obtain ⟨values, stores, sorted, _, same⟩ := models
  obtain ⟨small, tail⟩ := fits
  have bounded : values.length < 2 ^ 31 := stores.length ▸ small
  have range : is.encoding.Holds value.toInt ↔ _ := holds_iff value.le_toInt value.toInt_lt
  by_cases wider : (intsetValueEncoding value.toInt).size > is.encoding.size
  · have absent := not_mem_of_wider stores wider
    obtain ⟨next, added, encoding, stores'⟩ := intsetUpgradeAndAdd_spec stores bounded wider.le
      ((holds_iff value.le_toInt value.toInt_lt).mpr le_rfl)
    rw [intsetAdd, if_pos wider, added, decide_eq_true ((same _).not.mp absent)]
    refine ⟨next, rfl, ⟨_, stores', upgrade_sorted sorted stores.holds (range.not.mpr (by omega)), ?_, ?_⟩, ?_⟩
    · split <;> simp <;> omega
    · intro other
      split <;> simp [same, or_comm]
    · rw [encoding]
      exact wider.le
  · rcases intsetSearch_parts stores sorted bounded value.toInt with
      ⟨front, back, rfl, searched⟩ | ⟨front, back, rfl, searched, smaller, greater⟩
    · have present : value.toInt ∈ members := (same _).mp (mem_append_right front mem_cons_self)
      rw [intsetAdd, if_neg wider, searched, ok_bind, decide_eq_false (not_not_intro present),
        Finset.insert_eq_of_mem present]
      exact ⟨is, rfl, ⟨_, stores, sorted, bounded.le, same⟩, le_rfl⟩
    · simp only [tailBytes, if_neg wider, searched, stores.length, length_append, Nat.add_sub_cancel_left] at tail
      obtain ⟨next, added, encoding, stores'⟩ := intsetAdd_at stores bounded (range.mpr (by omega))
        (by omega) searched tail
      rw [added, decide_eq_true ((same _).not.mp (notMem_parts smaller greater))]
      refine ⟨next, rfl, ⟨_, stores', insert_sorted sorted smaller greater, ?_, fun other => ?_⟩, by rw [encoding]⟩
      · simp only [length_append, length_cons] at bounded ⊢
        omega
      · rw [Finset.mem_insert, ← same, mem_append, mem_cons, mem_append]
        tauto

theorem intsetRemove_models {value : Int64} (models : Models is members) (fits : MoveFits is (.remove value)) :
    ∃ next, intsetRemove is value.toInt = .ok (next, decide (value.toInt ∈ members)) ∧
      Models next (members.erase value.toInt) ∧ is.encoding.size ≤ next.encoding.size := by
  obtain ⟨values, stores, sorted, large, same⟩ := models
  obtain ⟨small, tail⟩ := fits
  have bounded : values.length < 2 ^ 31 := stores.length ▸ small
  have unchanged : value.toInt ∉ values → Models is (members.erase value.toInt) := by
    intro absent
    refine ⟨values, stores, sorted, large, fun other => ?_⟩
    rw [Finset.mem_erase, ← same]
    exact ⟨fun member => ⟨fun equal => absent (equal ▸ member), member⟩, And.right⟩
  by_cases wider : (intsetValueEncoding value.toInt).size > is.encoding.size
  · have absent := not_mem_of_wider stores wider
    rw [intsetRemove, if_pos wider, decide_eq_false ((same _).not.mp absent)]
    exact ⟨is, rfl, unchanged absent, le_rfl⟩
  · rcases intsetSearch_parts stores sorted bounded value.toInt with
      ⟨front, back, rfl, searched⟩ | ⟨front, back, rfl, searched, smaller, greater⟩
    · have left : (front ++ value.toInt :: back).length - (front.length + 1) = back.length := by
        rw [length_append, length_cons]
        omega
      simp only [tailBytes, if_neg wider, searched, stores.length, left] at tail
      obtain ⟨next, removed, encoding, stores'⟩ := intsetRemove_at stores bounded (by omega) searched tail
      rw [removed, decide_eq_true ((same _).mp (mem_append_right front mem_cons_self))]
      have absent := (nodup_cons.mp (nodup_middle.mp (sorted.imp fun less => less.ne))).1
      refine ⟨next, rfl, ⟨_, stores', sorted.sublist ((sublist_cons_self _ _).append_left front), ?_, fun other => ?_⟩,
        by rw [encoding]⟩
      · simp only [length_append, length_cons] at bounded ⊢
        omega
      · rw [Finset.mem_erase, ← same, mem_append, mem_append, mem_cons]
        have differs : other ∈ front ∨ other ∈ back → other ≠ value.toInt := fun member equal =>
          absent (mem_append.mpr (equal ▸ member))
        tauto
    · have absent := notMem_parts smaller greater
      rw [intsetRemove, if_neg wider, searched, ok_bind, decide_eq_false ((same _).not.mp absent)]
      exact ⟨is, rfl, unchanged absent, le_rfl⟩

/-- Every operation simulates its abstract step, and no operation narrows the encoding. -/
theorem intsetStep_models (is : Intset) (members : Finset Int) (op : IntsetOp)
    (models : Models is members) (fits : MoveFits is op) :
    ∃ next, intsetStep is op = .ok (next, (setStep members op).2) ∧
      Models next (setStep members op).1 ∧ is.encoding.size ≤ next.encoding.size := by
  cases op with
  | add value => exact intsetAdd_models models fits
  | remove value => exact intsetRemove_models models fits
  | find value =>
    obtain ⟨values, stores, sorted, large, same⟩ := models
    have found := intsetFind_eq value stores sorted (stores.length ▸ fits.1)
    refine ⟨is, ?_, ⟨values, stores, sorted, large, same⟩, le_rfl⟩
    simp only [intsetStep, found, same]
    rfl

theorem orderLoop_sorted (stores : Stores is values) (sorted : values.Pairwise (· < ·))
    (remaining i : Nat) (prev : Int) (read : values[i]? = some prev)
    (total : i + 1 + remaining = values.length) : orderLoop is remaining (i + 1) prev = .ok true := by
  induction remaining generalizing i prev with
  | zero => rfl
  | succ remaining ih =>
    have next := getElem?_eq_getElem (show i + 1 < values.length by omega)
    obtain ⟨within, rfl⟩ := List.getElem?_eq_some_iff.mp read
    have larger := pairwise_iff_getElem.mp sorted i (i + 1) within (by omega) i.lt_succ_self
    rw [orderLoop, stores.get next, ok_bind, if_neg (by omega)]
    exact ih (i + 1) _ next (by omega)

theorem encodingOf_size (enc : Encoding) : encodingOf enc.size = some enc := by
  cases enc <;> rfl

/-- Deep validation accepts the blob of every valid nonempty intset. -/
theorem intsetValidateIntegrity_blob (stores : Stores is values) (sorted : values.Pairwise (· < ·))
    (large : values.length ≤ 2 ^ 31) (inhabited : values ≠ []) :
    intsetValidateIntegrity (blob is) (intsetBlobLen is) true = .ok true := by
  have positive := length_pos_of_ne_nil inhabited
  have first := getElem?_eq_getElem positive
  have length := stores.length
  have header : readBytes (blob is) 0 4 = .ok (leBytes 4 is.encoding.size) := by
    exact readBytes_append [] _ _ rfl (length_leBytes _ _).symm
  have count : readBytes (blob is) 4 4 = .ok (leBytes 4 is.length) := readBytes_append _ _ _ (by simp) (by simp)
  have rest : (blob is).drop headerSize = is.contents := by
    rw [blob]
    exact drop_left' (by simp [headerSize])
  have small := is.encoding.size_le
  have stored : intsetGet ⟨is.encoding, is.length, is.contents⟩ 0 = .ok values[0] := stores.get first
  simp only [intsetValidateIntegrity, header, count, ok_bind,
    leValue_leBytes_of_lt (show is.encoding.size < 256 ^ 4 by omega),
    leValue_leBytes_of_lt (show is.length < 256 ^ 4 by omega), encodingOf_size, intsetBlobLen, rest]
  rw [if_neg (by omega), if_neg (not_not_intro rfl), if_neg (by omega),
    if_neg (not_not_intro trivial), stored, ok_bind]
  exact orderLoop_sorted stores sorted _ 0 _ first (by omega)

/-- A run whose moves fit keeps the set and never narrows the encoding. -/
theorem run_models (ops : List IntsetOp) (is : Intset) (members : Finset Int)
    (models : Models is members) (guarded : Guarded intsetStep MoveFits is ops) :
    ∃ next, run intsetStep is ops = .ok (next, (specRun setStep members ops).2) ∧
      Models next (specRun setStep members ops).1 ∧ is.encoding.size ≤ next.encoding.size := by
  have simulates : ∀ state members op,
      (Models state members ∧ is.encoding.size ≤ state.encoding.size) → MoveFits state op →
      Outcome (intsetStep state op) (fun _ => False) fun result =>
        (Models result.1 (setStep members op).1 ∧ is.encoding.size ≤ result.1.encoding.size) ∧
          result.2 = (setStep members op).2 := by
    intro state members op related fits
    obtain ⟨next, stepped, kept, wider⟩ := intsetStep_models state members op related.1 fits
    rw [stepped]
    exact ⟨⟨kept, related.2.trans wider⟩, rfl⟩
  obtain ⟨⟨next, replies⟩, finished, ⟨⟨kept, wider⟩, same⟩⟩ :=
    (run_refines simulates ops is members ⟨models, le_rfl⟩ guarded).exists_ok
  exact ⟨next, same ▸ finished, kept, wider⟩

/-- A run whose moves fit in a `uint32_t` behaves as a set. At each point the values are
stored in increasing order at a wide enough encoding that later operations do not narrow. -/
theorem intset_refines_finset (before after : List IntsetOp)
    (guarded : Guarded intsetStep MoveFits intsetNew (before ++ after)) :
    ∃ middle is replies replies', run intsetStep intsetNew before = .ok (middle, replies) ∧
      run intsetStep middle after = .ok (is, replies') ∧
      replies ++ replies' = (specRun setStep ∅ (before ++ after)).2 ∧
      middle.encoding.size ≤ is.encoding.size ∧
      (∃ values, Stores is values ∧ values.Pairwise (· < ·) ∧
        ∀ value, value ∈ values ↔ value ∈ (specRun setStep ∅ (before ++ after)).1) ∧
      (is.length < 2 ^ 31 → ∀ value : Int64, intsetFind is value.toInt =
        .ok (decide (value.toInt ∈ (specRun setStep ∅ (before ++ after)).1))) ∧
      ((specRun setStep ∅ (before ++ after)).1.Nonempty →
        intsetValidateIntegrity (blob is) (intsetBlobLen is) true = .ok true) := by
  obtain ⟨first, second⟩ := guarded_append guarded
  obtain ⟨middle, ran, models, _⟩ := run_models before intsetNew ∅ models_intsetNew first
  obtain ⟨is, ran', ⟨values, stores, sorted, large, same⟩, wider⟩ := run_models after middle _ models (second _ _ ran)
  rw [specRun_append]
  refine ⟨middle, is, _, _, ran, ran', rfl, wider, ⟨values, stores, sorted, same⟩, ?_, ?_⟩
  · intro small value
    rw [intsetFind_eq value stores sorted (stores.length ▸ small)]
    simp only [same]
  · rintro ⟨value, member⟩
    exact intsetValidateIntegrity_blob stores sorted large (ne_nil_of_mem ((same value).mpr member))

/-- Two upgrades, a removal, and a search. -/
theorem intset_refines_finset_sample : ∃ middle is replies replies',
      run intsetStep intsetNew [.add 5, .add 100000, .add 7] = .ok (middle, replies) ∧
      run intsetStep middle [.add (-5000000000), .remove 7, .find 5] = .ok (is, replies') ∧
      replies ++ replies' = [true, true, true, true, true, true] ∧ middle.encoding.size ≤ is.encoding.size := by
  obtain ⟨middle, is, replies, replies', ran, ran', same, wider, _⟩ :=
    intset_refines_finset [.add 5, .add 100000, .add 7] [.add (-5000000000), .remove 7, .find 5]
      (by decide +kernel)
  exact ⟨middle, is, replies, replies', ran, ran', same.trans (by decide +kernel), wider⟩

variable (stores : Stores is values) (sorted : values.Pairwise (· < ·)) (bounded : values.length < 2 ^ 31)
include stores sorted bounded
theorem intsetSearch_above {value : Int} (above : ∀ other ∈ values, other < value) :
    intsetSearch is value = .ok (false, values.length) := by
  rcases intsetSearch_parts stores sorted bounded value with
    ⟨front, back, rfl, -⟩ | ⟨front, back, rfl, searched, -, greater⟩
  · exact absurd (above value (mem_append_right front mem_cons_self)) (lt_irrefl value)
  · cases back with
    | nil => rwa [append_nil]
    | cons other back =>
      exact absurd (greater other mem_cons_self) (not_lt_of_gt (above other (mem_append_right front mem_cons_self)))

theorem intsetSearch_below {value : Int} (below : ∀ other ∈ values, value < other) :
    intsetSearch is value = .ok (false, 0) := by
  rcases intsetSearch_parts stores sorted bounded value with
    ⟨front, back, rfl, -⟩ | ⟨front, back, rfl, searched, smaller, -⟩
  · exact absurd (below value (mem_append_right front mem_cons_self)) (lt_irrefl value)
  · cases front with
    | nil => exact searched
    | cons other front => exact absurd (smaller other mem_cons_self) (not_lt_of_gt (below other mem_cons_self))

theorem intsetAdd_above {value : Int} (holds : is.encoding.Holds value)
    (narrow : (intsetValueEncoding value).size ≤ is.encoding.size) (above : ∀ other ∈ values, other < value) :
    ∃ next, intsetAdd is value = .ok (next, true) ∧ next.encoding = is.encoding ∧
      Stores next (values ++ [value]) := by
  have searched := intsetSearch_above stores sorted bounded above
  rw [← append_nil values] at stores bounded
  exact intsetAdd_at stores bounded holds narrow searched (by simp)

/-- When the bytes to move are a multiple of `2 ^ 32`, nothing moves. The new smallest value
overwrites the old one, and the new last cell keeps its undefined content. -/
theorem intsetAdd_truncated {value : Int} (inhabited : 0 < values.length) (holds : is.encoding.Holds value)
    (narrow : (intsetValueEncoding value).size ≤ is.encoding.size) (below : ∀ other ∈ values, value < other)
    (wraps : values.length * is.encoding.size % 2 ^ 32 = 0) :
    ∃ next, intsetAdd is value = .ok (next, true) ∧ next.encoding = is.encoding ∧
      Stores next (value :: values.tail ++ [0]) := by
  have searched := intsetSearch_below stores sorted bounded below
  obtain ⟨enc, rfl, old⟩ := stores.exists_eq
  obtain ⟨first, rest, rfl⟩ := exists_cons_of_length_pos inhabited
  have zeros : List.replicate enc.size 0 = twosBytes enc.size 0 := by cases enc <;> decide
  have resized := intsetResize_eq ⟨enc, (first :: rest).length, cells enc (first :: rest)⟩
    (show (first :: rest).length + 1 < 2 ^ 32 by omega)
  have grown : zrealloc (cells enc (first :: rest)) (((first :: rest).length + 1) * enc.size) =
      twosBytes enc.size first ++ cells enc (rest ++ [0]) := by
    rw [zrealloc_grow (by rw [length_cells, add_mul]; omega), length_cells, add_mul, one_mul,
      Nat.add_sub_cancel_left, zeros]
    simp [cells]
  have unmoved : intsetMoveTail ⟨enc, (first :: rest).length,
      twosBytes enc.size first ++ cells enc (rest ++ [0])⟩ 0 (0 + 1) =
        .ok ⟨enc, (first :: rest).length, twosBytes enc.size first ++ cells enc (rest ++ [0])⟩ := by
    have none : ((first :: rest).length - 0) * enc.size % 2 ^ 32 = 0 := wraps
    simp only [intsetMoveTail, memmove, none]
    rw [readBytes, if_pos (by simp), ok_bind, take_zero]
    have written := writeBytes_append (twosBytes enc.size first) [] (cells enc (rest ++ [0])) []
      (show (0 + 1) * enc.size = (twosBytes enc.size first).length by simp) rfl
    simp only [append_nil] at written
    rw [written]
    rfl
  have write := intsetSet_of ⟨enc, (first :: rest).length,
    twosBytes enc.size first ++ cells enc (rest ++ [0])⟩ 0 value [] (twosBytes enc.size first)
    (cells enc (rest ++ [0])) rfl (by simp) (by simp)
  have moves : 0 < (first :: rest).length := by simp
  rw [intsetAdd, if_neg (by simpa using narrow), searched]
  simp only [resized, ok_bind, grown, if_pos moves, unmoved, write]
  refine ⟨_, rfl, rfl, ?_, by simp [cells], ?_⟩
  · simp only [length_cons, length_append, tail_cons] at bounded ⊢
    simp only [length_nil]
    omega
  · intro other member
    have zero : enc.Holds 0 := by cases enc <;> decide
    simp only [tail_cons, cons_append, mem_cons, mem_append, not_mem_nil, or_false] at member
    rcases member with rfl | member | rfl
    · exact holds
    · exact old other (mem_cons_of_mem _ member)
    · exact zero

omit stores sorted bounded

variable (count : Nat)

/-- Increasing values that need the widest encoding. -/
def ascending : List Int := (List.range count).map fun index : Nat => 2 ^ 31 + (index : Int)

def ascendingAdds : List IntsetOp := (ascending count).map fun value => .add (Int64.ofInt value)

theorem ascending_succ : ascending (count + 1) = ascending count ++ [2 ^ 31 + (count : Int)] := by
  simp [ascending, range_succ]

theorem ascending_sorted : (ascending count).Pairwise (· < ·) := by
  rw [ascending, pairwise_map]
  exact pairwise_lt_range.imp fun order => by omega

theorem mem_ascending_iff {count : Nat} {value : Int} :
    value ∈ ascending count ↔ 2 ^ 31 ≤ value ∧ value < 2 ^ 31 + count := by
  rw [ascending, mem_map]
  constructor
  · rintro ⟨index, inside, rfl⟩
    have := mem_range.mp inside
    omega
  · rintro ⟨lower, upper⟩
    exact ⟨(value - 2 ^ 31).toNat, mem_range.mpr (by omega), by omega⟩

theorem ascendingAdds_succ :
    ascendingAdds (count + 1) = ascendingAdds count ++ [.add (Int64.ofInt (2 ^ 31 + count))] := by
  simp [ascendingAdds, ascending_succ]

theorem toInt_ascending {index : Nat} (small : index < 2 ^ 31) :
    (Int64.ofInt (2 ^ 31 + index)).toInt = 2 ^ 31 + index :=
  Int64.toInt_ofInt_of_le (by omega) (by omega)

theorem mem_ascending {count index : Nat} (small : count < 2 ^ 31) (below : index < count) :
    2 ^ 31 + (index : Int) ∈ (specRun setStep ∅ (ascendingAdds count)).1 := by
  induction count with
  | zero => omega
  | succ count ih =>
    rw [ascendingAdds_succ, specRun_append]
    simp only [specRun, setStep, toInt_ascending (show count < 2 ^ 31 by omega), Finset.mem_insert]
    rcases Nat.lt_or_eq_of_le (Nat.le_of_lt_succ below) with earlier | rfl
    · exact .inr (ih (by omega) earlier)
    · exact .inl rfl

theorem intsetAdd_ascending {count : Nat} (small : count + 2 < 2 ^ 31) (encoding : is.encoding = .int64)
    (stores : Stores is (ascending (count + 1))) :
    ∃ next, intsetAdd is (2 ^ 31 + ((count + 1 : Nat) : Int)) = .ok (next, true) ∧ next.encoding = .int64 ∧
      Stores next (ascending (count + 2)) := by
  have range : Encoding.int64.Holds (2 ^ 31 + ((count + 1 : Nat) : Int)) := by
    refine ⟨?_, ?_⟩ <;> simp only [Encoding.size] <;> omega
  have wide : intsetValueEncoding (2 ^ 31 + ((count + 1 : Nat) : Int)) = .int64 := by
    rw [intsetValueEncoding, if_pos (.inr (by omega))]
  obtain ⟨next, added, encoding', stores'⟩ := intsetAdd_above stores (ascending_sorted _)
    (by rw [ascending, length_map, length_range]; omega) (encoding ▸ range) (by rw [wide, encoding]) (by
      intro other member
      have := mem_ascending_iff.mp member
      omega)
  refine ⟨next, added, encoding'.trans encoding, ?_⟩
  rw [ascending_succ]
  exact stores'

theorem run_ascending (small : count + 1 < 2 ^ 31) :
    ∃ is replies, run intsetStep intsetNew (ascendingAdds (count + 1)) = .ok (is, replies) ∧
      is.encoding = .int64 ∧ Stores is (ascending (count + 1)) := by
  induction count with
  | zero =>
    exact ⟨⟨.int64, 1, cells .int64 [2 ^ 31]⟩, [true], by decide +kernel, rfl, rfl, rfl, by decide⟩
  | succ count ih =>
    obtain ⟨is, replies, ran, encoding, stores⟩ := ih (by omega)
    obtain ⟨next, added, encoding', stores'⟩ := intsetAdd_ascending small encoding stores
    refine ⟨next, replies ++ [true], ?_, encoding', stores'⟩
    rw [ascendingAdds_succ]
    refine run_append ran ?_
    simp only [run, intsetStep, toInt_ascending (show count + 1 < 2 ^ 31 by omega), added]
    rfl

/-- The search for a value above the last element does not look further. -/
theorem intsetFind_above_last {value last : Int} (stores : Stores is (values ++ [last]))
    (above : last < value) : intsetFind is value = .ok false := by
  have length := stores.length
  rw [length_append, length_singleton] at length
  have read : (values ++ [last])[((is.length : Int) - 1).toNat]? = some last := by
    rw [show ((is.length : Int) - 1).toNat = values.length by omega]
    simp
  rw [intsetFind]
  split
  · rfl
  · rw [intsetSearch, if_neg (by omega)]
    simp only [stores.get read, ok_bind, if_pos above]
    rfl

/-- When the bytes of the members are a multiple of `2 ^ 32`, a smaller value erases the
smallest member. -/
theorem intsetAdd_smallest {count : Nat} (positive : 0 < count) (small : count < 2 ^ 31)
    (wraps : count * 8 % 2 ^ 32 = 0) (encoding : is.encoding = .int64) (stores : Stores is (ascending count)) :
    ∃ next, intsetAdd is (2 ^ 31 - 1) = .ok (next, true) ∧ intsetFind next (2 ^ 31) = .ok false ∧
      next.length = count + 1 := by
  have length : (ascending count).length = count := by
    rw [ascending, length_map, length_range]
  obtain ⟨next, added, encoding', stores'⟩ := intsetAdd_truncated stores (ascending_sorted _)
    (by omega) (by omega) (show is.encoding.Holds (2 ^ 31 - 1) by rw [encoding]; decide)
    (by rw [encoding]; decide)
    (by
      intro other inside
      have := mem_ascending_iff.mp inside
      omega)
    (by rw [length, encoding]; exact wraps)
  refine ⟨next, added, intsetFind_above_last stores' (show (0 : Int) < 2 ^ 31 by decide), ?_⟩
  rw [stores'.length, length_append, length_cons, length_tail, length_singleton]
  omega

theorem smallest_lost {count : Nat} (positive : 0 < count) (small : count < 2 ^ 31) (wraps : count * 8 % 2 ^ 32 = 0) :
    ∃ is replies, run intsetStep intsetNew (ascendingAdds count ++
        [.add (Int64.ofInt (2 ^ 31 - 1)), .find (Int64.ofInt (2 ^ 31))]) = .ok (is, replies) ∧
      replies.getLast? = some false ∧
      (specRun setStep ∅ (ascendingAdds count ++
        [.add (Int64.ofInt (2 ^ 31 - 1)), .find (Int64.ofInt (2 ^ 31))])).2.getLast? = some true := by
  have low : (Int64.ofInt (2 ^ 31 - 1)).toInt = 2 ^ 31 - 1 := by decide
  have first : (Int64.ofInt (2 ^ 31)).toInt = 2 ^ 31 := by decide
  have member : (2 ^ 31 : Int) ∈ (specRun setStep ∅ (ascendingAdds count)).1 := by
    simpa using mem_ascending small positive
  obtain ⟨last, rfl⟩ := Nat.exists_eq_succ_of_ne_zero positive.ne'
  obtain ⟨is, replies, ran, encoding, stores⟩ := run_ascending last small
  obtain ⟨next, added, missed, _⟩ := intsetAdd_smallest positive small wraps encoding stores
  refine ⟨next, replies ++ [true, false], run_append ran ?_, by simp, ?_⟩
  · simp only [run, intsetStep, low, first, added, missed, ok_bind]
    rfl
  · rw [specRun_append]
    simp only [specRun, setStep, first, Finset.mem_insert, member]
    simp

/-- The first such count is `2 ^ 29`. -/
theorem intset_loses_member : ∃ is replies, run intsetStep intsetNew (ascendingAdds (2 ^ 29) ++
        [.add (Int64.ofInt (2 ^ 31 - 1)), .find (Int64.ofInt (2 ^ 31))]) = .ok (is, replies) ∧
      replies.getLast? = some false ∧
      (specRun setStep ∅ (ascendingAdds (2 ^ 29) ++
        [.add (Int64.ofInt (2 ^ 31 - 1)), .find (Int64.ofInt (2 ^ 31))])).2.getLast? = some true :=
  smallest_lost (by decide) (by decide) (by decide)

end Redis.IntegerSet

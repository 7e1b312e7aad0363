import Redis.Construction.Intset

namespace Redis.IntegerSet
open Foundation List
variable {is : Intset} {values : List Int} {enc : Encoding}
variable {value : Int} {pos : Nat}

/-- The value is in the signed range of the encoding. -/
def Encoding.Holds (enc : Encoding) (value : Int) : Prop :=
  -(256 ^ enc.size / 2 : Nat) ≤ value ∧ value < (256 ^ enc.size / 2 : Nat)

instance (enc : Encoding) (value : Int) : Decidable (enc.Holds value) :=
  inferInstanceAs (Decidable (_ ∧ _))

theorem Encoding.size_pos (enc : Encoding) : 0 < enc.size := by cases enc <;> decide

theorem holds_iff (lower : -2 ^ 63 ≤ value) (upper : value < 2 ^ 63) :
    enc.Holds value ↔ (intsetValueEncoding value).size ≤ enc.size := by
  unfold Encoding.Holds intsetValueEncoding
  cases enc <;> split_ifs <;> simp only [Encoding.size] <;> norm_num at * <;> omega

theorem Encoding.Holds.mono {wider : Encoding} (holds : enc.Holds value)
    (grows : enc.size ≤ wider.size) : wider.Holds value := by
  have power : 256 ^ enc.size / 2 ≤ 256 ^ wider.size / 2 :=
    Nat.div_le_div_right (Nat.pow_le_pow_right (by decide) grows)
  unfold Encoding.Holds at *
  omega

theorem Encoding.Holds.read_back (holds : enc.Holds value) : twosValue (twosBytes enc.size value) = value :=
  twosValue_twosBytes holds.1 holds.2 enc.size_pos

/-- The bytes of consecutive elements. -/
def cells (enc : Encoding) (values : List Int) : Memory := values.flatMap (twosBytes enc.size)

@[simp] theorem length_cells (enc : Encoding) (values : List Int) :
    (cells enc values).length = values.length * enc.size := by
  simp [cells]

@[simp] theorem cells_append (enc : Encoding) (left right : List Int) :
    cells enc (left ++ right) = cells enc left ++ cells enc right := flatMap_append

@[simp] theorem cells_cons (enc : Encoding) (value : Int) (rest : List Int) :
    cells enc (value :: rest) = twosBytes enc.size value ++ cells enc rest := rfl

/-- An intset stores a list of values at the width of its encoding. -/
structure Stores (is : Intset) (values : List Int) : Prop where
  length : is.length = values.length
  contents : is.contents = cells is.encoding values
  holds : ∀ value ∈ values, is.encoding.Holds value

theorem Stores.exists_eq (stores : Stores is values) :
    ∃ enc, is = ⟨enc, values.length, cells enc values⟩ ∧ ∀ value ∈ values, enc.Holds value := by
  refine ⟨is.encoding, ?_, stores.holds⟩
  rw [← stores.length, ← stores.contents]

theorem intsetGetEncoded_of (left right : List UInt8)
    (contents : is.contents = left ++ twosBytes enc.size value ++ right)
    (start : left.length = pos * enc.size) (holds : enc.Holds value) :
    intsetGetEncoded is pos enc = .ok value := by
  rw [intsetGetEncoded, contents, readBytes_append _ _ _ start.symm (length_twosBytes _ _).symm,
    ok_bind, holds.read_back]
  rfl

theorem exists_parts (found : values[pos]? = some value) :
    ∃ front back, values = front ++ value :: back ∧ front.length = pos := by
  obtain ⟨within, rfl⟩ := List.getElem?_eq_some_iff.mp found
  refine ⟨values.take pos, values.drop (pos + 1), ?_, length_take_of_le within.le⟩
  rw [cons_getElem_drop_succ, take_append_drop]

theorem Stores.get (stores : Stores is values) (found : values[pos]? = some value) : intsetGet is pos = .ok value := by
  obtain ⟨front, back, rfl, rfl⟩ := exists_parts found
  apply intsetGetEncoded_of (cells is.encoding front) (cells is.encoding back)
  · rw [stores.contents, cells_append, cells_cons, append_assoc]
  · exact length_cells _ _
  · exact stores.holds value (mem_of_getElem? found)

/-- The values before the insertion point are smaller and the others are greater. -/
def Splits (values : List Int) (pos : Nat) (value : Int) : Prop :=
  pos ≤ values.length ∧ (∀ index < pos, ∀ other, values[index]? = some other → other < value) ∧
    ∀ index ≥ pos, ∀ other, values[index]? = some other → value < other

theorem sorted_le (sorted : values.Pairwise (· < ·)) {first second : Nat} {low high : Int}
    (order : first ≤ second) (one : values[first]? = some low) (two : values[second]? = some high) :
    low ≤ high := by
  obtain ⟨within, rfl⟩ := List.getElem?_eq_some_iff.mp one
  obtain ⟨within', rfl⟩ := List.getElem?_eq_some_iff.mp two
  rcases order.lt_or_eq with before | rfl
  · exact (pairwise_iff_getElem.mp sorted first second within within' before).le
  · exact le_rfl

/-- The search interval closes around the value. The loop keeps all values before `min`
smaller and all values after `max` greater. -/
theorem searchLoop_spec (stores : Stores is values) (sorted : values.Pairwise (· < ·))
    (bounded : values.length < 2 ^ 31) (value : Int) (fuel : Nat) (min max mid cur : Int)
    (enough : max - min + 1 ≤ fuel) (lower : 0 ≤ min) (upper : max < values.length)
    (ordered : min ≤ max + 1)
    (smaller : ∀ index : Nat, (index : Int) < min → ∀ other, values[index]? = some other → other < value)
    (greater : ∀ index : Nat, max < (index : Int) → ∀ other, values[index]? = some other → value < other)
    (missed : max < min → cur ≠ value) :
    ∃ min' mid' cur', searchLoop is value fuel min max mid cur = .ok (min', mid', cur') ∧
      if value = cur' then 0 ≤ mid' ∧ values[mid'.toNat]? = some value
      else Splits values min'.toNat value := by
  induction fuel generalizing min max mid cur with
  | zero =>
    rw [searchLoop, if_neg (by omega)]
    refine ⟨min, mid, cur, rfl, ?_⟩
    rw [if_neg (fun same => missed (by omega) same.symm)]
    refine ⟨by omega, fun index below => smaller index (by omega), ?_⟩
    exact fun index above => greater index (by omega)
  | succ fuel ih =>
    rw [searchLoop]
    by_cases active : max ≥ min
    · rw [if_pos active]
      have middle : (min % 2 ^ 32 + max % 2 ^ 32) % 2 ^ 32 / 2 = (min + max) / 2 := by omega
      dsimp only
      rw [middle]
      have within : ((min + max) / 2).toNat < values.length := by omega
      have found := getElem?_eq_getElem within
      rw [stores.get found, ok_bind]
      generalize values[((min + max) / 2).toNat] = probe at found
      by_cases right : value > probe
      · rw [if_pos right]
        refine ih _ _ _ _ (by omega) (by omega) upper (by omega) ?_ greater (by omega)
        intro index below other read
        exact (sorted_le sorted (by omega) read found).trans_lt right
      · rw [if_neg right]
        by_cases left : value < probe
        · rw [if_pos left]
          refine ih _ _ _ _ (by omega) lower (by omega) (by omega) smaller ?_ (by omega)
          intro index above other read
          exact left.trans_le (sorted_le sorted (by omega) found read)
        · rw [if_neg left]
          have equal : value = probe := by omega
          refine ⟨min, (min + max) / 2, probe, rfl, ?_⟩
          rw [if_pos equal]
          exact ⟨by omega, equal ▸ found⟩
    · rw [if_neg active]
      refine ⟨min, mid, cur, rfl, ?_⟩
      rw [if_neg (fun same => missed (by omega) same.symm)]
      refine ⟨by omega, fun index below => smaller index (by omega), ?_⟩
      exact fun index above => greater index (by omega)

theorem intsetSearch_spec (stores : Stores is values) (sorted : values.Pairwise (· < ·))
    (bounded : values.length < 2 ^ 31) (value : Int) :
    ∃ found pos, intsetSearch is value = .ok (found, pos) ∧
      if found then values[pos]? = some value else Splits values pos value := by
  have length := stores.length
  unfold intsetSearch
  by_cases none : is.length = 0
  · rw [if_pos none]
    refine ⟨false, 0, rfl, ?_⟩
    have empty : values = [] := length_eq_zero_iff.mp (by omega)
    simp [Splits, empty]
  · rw [if_neg none]
    dsimp only
    have lastIn : ((is.length : Int) - 1).toNat < values.length := by omega
    have firstIn : 0 < values.length := by omega
    have last := getElem?_eq_getElem lastIn
    have first := getElem?_eq_getElem firstIn
    rw [stores.get last, ok_bind]
    generalize values[((is.length : Int) - 1).toNat] = high at last
    generalize values[0] = low at first
    by_cases above : value > high
    · rw [if_pos above]
      refine ⟨false, is.length, rfl, by omega, ?_, ?_⟩
      · intro index below other read
        exact (sorted_le sorted (by omega) read last).trans_lt above
      · intro index beyond other read
        rw [getElem?_eq_none (by omega)] at read
        cases read
    · rw [if_neg above, stores.get first, ok_bind]
      by_cases below : value < low
      · rw [if_pos below]
        refine ⟨false, 0, rfl, by omega, by omega, ?_⟩
        intro index _ other read
        exact below.trans_le (sorted_le sorted index.zero_le first read)
      · rw [if_neg below]
        obtain ⟨min, mid, cur, looped, result⟩ := searchLoop_spec stores sorted bounded value is.length 0
          ((is.length : Int) - 1) (-1) (-1) (by omega) (by omega) (by omega) (by omega)
          (fun index before => absurd before (by omega))
          (fun index beyond other read => by
            rw [getElem?_eq_none (by omega)] at read
            cases read) (by omega)
        rw [looped, ok_bind]
        split at result
        · rename_i equal
          rw [if_pos equal]
          exact ⟨true, _, rfl, result.2⟩
        · rename_i differs
          rw [if_neg differs]
          exact ⟨false, _, rfl, result⟩

theorem intsetSearch_parts (stores : Stores is values) (sorted : values.Pairwise (· < ·))
    (bounded : values.length < 2 ^ 31) (value : Int) :
    (∃ front back, values = front ++ value :: back ∧ intsetSearch is value = .ok (true, front.length)) ∨
      ∃ front back, values = front ++ back ∧ intsetSearch is value = .ok (false, front.length) ∧
        (∀ other ∈ front, other < value) ∧ ∀ other ∈ back, value < other := by
  obtain ⟨found, pos, searched, result⟩ := intsetSearch_spec stores sorted bounded value
  cases found with
  | true =>
    obtain ⟨front, back, rfl, rfl⟩ := exists_parts result
    exact .inl ⟨front, back, rfl, searched⟩
  | false =>
    obtain ⟨within, smaller, greater⟩ := result
    refine .inr ⟨values.take pos, values.drop pos, (take_append_drop pos values).symm, ?_, ?_, ?_⟩
    · rw [searched, length_take_of_le within]
    · intro other member
      obtain ⟨index, read⟩ := mem_iff_getElem?.mp member
      rw [getElem?_take] at read
      split_ifs at read with below
      exact smaller index below other read
    · intro other member
      obtain ⟨index, read⟩ := mem_iff_getElem?.mp member
      rw [getElem?_drop] at read
      exact greater _ (Nat.le_add_right pos index) other read

end Redis.IntegerSet

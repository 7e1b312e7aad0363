import Redis.Proof.Intset.Search

namespace Redis.IntegerSet
open Foundation List
variable {is : Intset} {values front back : List Int} {value : Int}

theorem Encoding.size_le (enc : Encoding) : enc.size ≤ 8 := by cases enc <;> decide

theorem intsetResize_eq (is : Intset) {len : Nat} (fits : len < 2 ^ 32) :
    intsetResize is len = .ok { is with contents := zrealloc is.contents (len * is.encoding.size) } := by
  have bound : len * is.encoding.size ≤ 2 ^ 32 * 8 := Nat.mul_le_mul fits.le is.encoding.size_le
  rw [intsetResize, Nat.mod_eq_of_lt fits, require_of (by simp only [headerSize]; omega)]
  rfl

theorem intsetSet_of (is : Intset) (pos : Nat) (value : Int) (left middle right : List UInt8)
    (contents : is.contents = left ++ middle ++ right) (start : left.length = pos * is.encoding.size)
    (size : middle.length = is.encoding.size) :
    intsetSet is pos value = .ok { is with contents := left ++ twosBytes is.encoding.size value ++ right } := by
  rw [intsetSet, contents, writeBytes_append _ _ _ _ start.symm (by rw [length_twosBytes, size]), ok_bind]
  rfl

theorem take_succ_of (within : pos < values.length) : values.take (pos + 1) = values.take pos ++ [values[pos]] := by
  rw [take_concat_get']

/-- The upgrade loop moves the elements to their new width. The bytes before the moved
elements hold the elements that are still at the old width. -/
theorem upgradeLoop_spec (is : Intset) {curenc : Encoding} (shift : Nat) {count : Nat} (within : count ≤ values.length)
    (wider : curenc.size ≤ is.encoding.size) (holds : ∀ value ∈ values, curenc.Holds value)
    (junk tail : List UInt8)
    (contents : is.contents = cells curenc (values.take count) ++ junk ++
      cells is.encoding (values.drop count) ++ tail)
    (size : (cells curenc (values.take count) ++ junk).length = (count + shift) * is.encoding.size) :
    ∃ rest, rest.length = shift * is.encoding.size ∧ upgradeLoop curenc shift count is =
        .ok { is with contents := rest ++ cells is.encoding values ++ tail } := by
  induction count generalizing is junk with
  | zero =>
    refine ⟨junk, by simpa [cells] using size, ?_⟩
    rw [upgradeLoop]
    cases is
    simpa [cells] using contents
  | succ count ih =>
    have split := take_succ_of (show count < values.length by omega)
    have value_mem : values[count] ∈ values := getElem_mem _
    have old : (cells curenc (values.take count)).length = count * curenc.size := by
      rw [length_cells, length_take, Nat.min_eq_left (by omega)]
    -- The cell that receives the element is the end of the unmoved bytes.
    generalize unmoved : cells curenc (values.take (count + 1)) ++ junk = bytes at contents size
    have keeps : count * curenc.size ≤ (count + shift) * is.encoding.size := Nat.mul_le_mul (by omega) wider
    have room : bytes.length = (count + shift) * is.encoding.size + is.encoding.size := by
      rw [size]
      ring
    have bytes_eq : bytes = cells curenc (values.take count) ++ (twosBytes curenc.size values[count] ++ junk) := by
      rw [← unmoved, split, cells_append]
      simp [cells]
    have read : intsetGetEncoded is count curenc = .ok values[count] := by
      refine intsetGetEncoded_of (cells curenc (values.take count))
        (junk ++ cells is.encoding (values.drop (count + 1)) ++ tail) ?_ old (holds _ value_mem)
      rw [contents, bytes_eq]
      simp only [append_assoc]
    have write := intsetSet_of is (count + shift) values[count]
      (bytes.take ((count + shift) * is.encoding.size))
      (bytes.drop ((count + shift) * is.encoding.size))
      (cells is.encoding (values.drop (count + 1)) ++ tail)
      (by rw [take_append_drop, contents]; simp only [append_assoc])
      (by rw [length_take, Nat.min_eq_left (by omega)])
      (by rw [length_drop]; omega)
    have kept_eq : bytes.take ((count + shift) * is.encoding.size) = cells curenc (values.take count) ++
          (twosBytes curenc.size values[count] ++ junk).take
            ((count + shift) * is.encoding.size - count * curenc.size) := by
      rw [bytes_eq, take_append, old, take_of_length_le (by omega)]
    rw [upgradeLoop, read, ok_bind, write]
    refine ih ⟨is.encoding, is.length, bytes.take ((count + shift) * is.encoding.size) ++
      twosBytes is.encoding.size values[count] ++
      (cells is.encoding (values.drop (count + 1)) ++ tail)⟩ (by omega) wider
      ((twosBytes curenc.size values[count] ++ junk).take
        ((count + shift) * is.encoding.size - count * curenc.size)) ?_ ?_
    · rw [kept_eq, drop_eq_getElem_cons (show count < values.length by omega), cells_cons]
      simp only [append_assoc]
    · rw [← kept_eq, length_take, Nat.min_eq_left (by omega)]

theorem intsetUpgradeAndAdd_spec (stores : Stores is values) (bounded : values.length < 2 ^ 31)
    (wider : is.encoding.size ≤ (intsetValueEncoding value).size) (holds : (intsetValueEncoding value).Holds value) :
    ∃ next, intsetUpgradeAndAdd is value = .ok next ∧ next.encoding = intsetValueEncoding value ∧
      Stores next (if value < 0 then value :: values else values ++ [value]) := by
  obtain ⟨curenc, rfl, old⟩ := stores.exists_eq
  change curenc.size ≤ _ at wider
  have kept : ∀ other ∈ values, (intsetValueEncoding value).Holds other :=
    fun other member => (old other member).mono wider
  have narrow := Nat.mul_le_mul_left values.length wider
  have resized := intsetResize_eq ⟨intsetValueEncoding value, values.length, cells curenc values⟩
    (show values.length + 1 < 2 ^ 32 by omega)
  simp only [intsetUpgradeAndAdd, resized]
  rw [zrealloc_grow (by rw [length_cells, add_mul]; omega), length_cells,
    Nat.mod_eq_of_lt (show values.length + 1 < 2 ^ 32 by omega)]
  generalize intsetValueEncoding value = enc at *
  by_cases negative : value < 0
  · obtain ⟨rest, size, looped⟩ := upgradeLoop_spec
      ⟨enc, values.length, cells curenc values ++
        List.replicate ((values.length + 1) * enc.size - values.length * curenc.size) 0⟩
      1 le_rfl wider old
      (List.replicate ((values.length + 1) * enc.size - values.length * curenc.size) 0) []
      (by simp [cells]) (by simp [add_mul]; omega)
    have write := intsetSet_of ⟨enc, values.length, rest ++ cells enc values ++ []⟩ 0 value [] rest
      (cells enc values) (by simp) (by simp) (by simpa using size)
    simp only [if_pos negative, looped, ok_bind, write]
    refine ⟨_, rfl, rfl, by simp, by simp, ?_⟩
    simpa using ⟨holds, kept⟩
  · obtain ⟨rest, size, looped⟩ := upgradeLoop_spec
      ⟨enc, values.length, cells curenc values ++
        List.replicate ((values.length + 1) * enc.size - values.length * curenc.size) 0⟩
      0 le_rfl wider old
      (List.replicate (values.length * enc.size - values.length * curenc.size) 0)
      (List.replicate enc.size 0)
      (by
        have total : (values.length + 1) * enc.size - values.length * curenc.size =
            values.length * enc.size - values.length * curenc.size + enc.size := by
          rw [add_mul]
          omega
        simp [cells, total])
      (by simp; omega)
    obtain rfl : rest = [] := length_eq_zero_iff.mp (by simpa using size)
    have write := intsetSet_of ⟨enc, values.length, [] ++ cells enc values ++ List.replicate enc.size 0⟩
      values.length value (cells enc values) (List.replicate enc.size 0) [] (by simp) (by simp) (by simp)
    simp only [if_neg negative, looped, ok_bind, write]
    refine ⟨_, rfl, rfl, by simp, by simp [cells], ?_⟩
    intro other member
    rcases mem_append.mp member with member | member
    · exact kept other member
    · rw [mem_singleton.mp member]
      exact holds

theorem intsetMoveTail_insert (enc : Encoding) (fits : back.length * enc.size < 2 ^ 32) :
    ∃ cell, cell.length = enc.size ∧
      intsetMoveTail ⟨enc, (front ++ back).length, cells enc (front ++ back) ++ List.replicate enc.size 0⟩
        front.length (front.length + 1) =
          .ok ⟨enc, (front ++ back).length, cells enc front ++ cell ++ cells enc back⟩ := by
  generalize tail_eq : cells enc back ++ List.replicate enc.size 0 = tail
  have room : tail.length = back.length * enc.size + enc.size := by
    rw [← tail_eq, length_append, length_cells, length_replicate]
  refine ⟨tail.take enc.size, by rw [length_take]; omega, ?_⟩
  have layout : cells enc front ++ cells enc back ++ List.replicate enc.size 0 =
      (cells enc front ++ tail.take enc.size) ++ tail.drop enc.size ++ [] := by
    rw [append_assoc, tail_eq, append_nil, append_assoc, take_append_drop]
  simp only [intsetMoveTail, memmove, length_append, Nat.add_sub_cancel_left, Nat.mod_eq_of_lt fits]
  rw [cells_append, readBytes_append _ _ _ (length_cells _ _).symm (length_cells _ _).symm, ok_bind, layout,
    writeBytes_append _ _ _ _ (by rw [length_append, length_cells, length_take, add_mul]; omega)
      (by rw [length_cells, length_drop]; omega), ok_bind, append_nil]
  rfl

theorem intsetMoveTail_remove (enc : Encoding) (fits : back.length * enc.size < 2 ^ 32) :
    ∃ cell, cell.length = enc.size ∧
      intsetMoveTail ⟨enc, (front ++ value :: back).length, cells enc (front ++ value :: back)⟩
        (front.length + 1) front.length =
          .ok ⟨enc, (front ++ value :: back).length, cells enc front ++ cells enc back ++ cell⟩ := by
  generalize tail_eq : twosBytes enc.size value ++ cells enc back = tail
  have room : tail.length = back.length * enc.size + enc.size := by
    rw [← tail_eq, length_append, length_cells, length_twosBytes, Nat.add_comm]
  refine ⟨tail.drop (back.length * enc.size), by rw [length_drop]; omega, ?_⟩
  have moved : (front ++ value :: back).length - (front.length + 1) = back.length := by
    rw [length_append, length_cons]
    omega
  have source : cells enc (front ++ value :: back) =
      (cells enc front ++ twosBytes enc.size value) ++ cells enc back ++ [] := by
    rw [cells_append, cells_cons, append_nil, append_assoc]
  have target : cells enc (front ++ value :: back) =
      cells enc front ++ tail.take (back.length * enc.size) ++ tail.drop (back.length * enc.size) := by
    rw [append_assoc, take_append_drop, cells_append, cells_cons, tail_eq]
  have read : readBytes (cells enc (front ++ value :: back)) ((front.length + 1) * enc.size)
      (back.length * enc.size) = .ok (cells enc back) := by
    rw [source]
    apply readBytes_append
    · rw [length_append, length_cells, length_twosBytes, add_mul, one_mul]
    · exact (length_cells _ _).symm
  have write : writeBytes (cells enc (front ++ value :: back)) (front.length * enc.size) (cells enc back) =
      .ok (cells enc front ++ cells enc back ++ tail.drop (back.length * enc.size)) := by
    rw [target]
    apply writeBytes_append
    · exact (length_cells _ _).symm
    · rw [length_cells, length_take]
      omega
  simp only [intsetMoveTail, memmove, moved, Nat.mod_eq_of_lt fits, read, write, ok_bind]
  rfl

theorem insert_sorted (sorted : (front ++ back).Pairwise (· < ·)) (smaller : ∀ other ∈ front, other < value)
    (greater : ∀ other ∈ back, value < other) : (front ++ value :: back).Pairwise (· < ·) := by
  obtain ⟨left, right, across⟩ := pairwise_append.mp sorted
  refine pairwise_append.mpr ⟨left, pairwise_cons.mpr ⟨greater, right⟩, fun low member high member' => ?_⟩
  rcases mem_cons.mp member' with rfl | later
  · exact smaller low member
  · exact across low member high later

theorem notMem_parts (smaller : ∀ other ∈ front, other < value) (greater : ∀ other ∈ back, value < other) :
    value ∉ front ++ back := by
  rw [mem_append]
  rintro (early | late)
  · exact lt_irrefl value (smaller value early)
  · exact lt_irrefl value (greater value late)

theorem upgrade_sorted (sorted : values.Pairwise (· < ·)) {enc : Encoding} (holds : ∀ other ∈ values, enc.Holds other)
    (outside : ¬ enc.Holds value) : (if value < 0 then value :: values else values ++ [value]).Pairwise (· < ·) := by
  unfold Encoding.Holds at holds outside
  split
  · rename_i negative
    refine pairwise_cons.mpr ⟨fun other member => ?_, sorted⟩
    have range := holds other member
    omega
  · rename_i positive
    refine pairwise_append.mpr ⟨sorted, pairwise_singleton _ _, fun other member last same => ?_⟩
    have range := holds other member
    rw [mem_singleton] at same
    omega

theorem intsetAdd_at (stores : Stores is (front ++ back)) (bounded : (front ++ back).length < 2 ^ 31)
    (holds : is.encoding.Holds value) (narrow : (intsetValueEncoding value).size ≤ is.encoding.size)
    (searched : intsetSearch is value = .ok (false, front.length)) (fits : back.length * is.encoding.size < 2 ^ 32) :
    ∃ next, intsetAdd is value = .ok (next, true) ∧ next.encoding = is.encoding ∧
      Stores next (front ++ value :: back) := by
  obtain ⟨enc, rfl, old⟩ := stores.exists_eq
  have resized := intsetResize_eq ⟨enc, (front ++ back).length, cells enc (front ++ back)⟩
    (show (front ++ back).length + 1 < 2 ^ 32 by omega)
  have opened : ∃ cell, cell.length = enc.size ∧ (if front.length < (front ++ back).length then
        intsetMoveTail ⟨enc, (front ++ back).length, cells enc (front ++ back) ++ List.replicate enc.size 0⟩
          front.length (front.length + 1)
      else .ok ⟨enc, (front ++ back).length, cells enc (front ++ back) ++ List.replicate enc.size 0⟩) =
        .ok ⟨enc, (front ++ back).length, cells enc front ++ cell ++ cells enc back⟩ := by
    split_ifs with more
    · exact intsetMoveTail_insert enc fits
    · obtain rfl : back = [] := by simpa using more
      exact ⟨List.replicate enc.size 0, length_replicate, by simp [cells]⟩
  obtain ⟨cell, size, opened⟩ := opened
  have write := intsetSet_of ⟨enc, (front ++ back).length, cells enc front ++ cell ++ cells enc back⟩ front.length value
    _ cell _ rfl (length_cells _ _) size
  have grown : zrealloc (cells enc (front ++ back)) (((front ++ back).length + 1) * enc.size) =
      cells enc (front ++ back) ++ List.replicate enc.size 0 := by
    rw [zrealloc_grow (by rw [length_cells, add_mul]; omega), length_cells, add_mul, one_mul, Nat.add_sub_cancel_left]
  rw [intsetAdd, if_neg (by simpa using narrow), searched]
  simp only [resized, ok_bind, grown, opened, write]
  refine ⟨_, rfl, rfl, ?_, by simp only [cells_append, cells_cons, append_assoc], ?_⟩
  · simp only [length_append, length_cons] at bounded ⊢
    omega
  · rw [forall_mem_append, forall_mem_cons] at *
    exact ⟨old.1, holds, old.2⟩

theorem intsetRemove_at (stores : Stores is (front ++ value :: back)) (bounded : (front ++ value :: back).length < 2 ^ 31)
    (narrow : (intsetValueEncoding value).size ≤ is.encoding.size)
    (searched : intsetSearch is value = .ok (true, front.length)) (fits : back.length * is.encoding.size < 2 ^ 32) :
    ∃ next, intsetRemove is value = .ok (next, true) ∧ next.encoding = is.encoding ∧ Stores next (front ++ back) := by
  obtain ⟨enc, rfl, old⟩ := stores.exists_eq
  have length : (front ++ value :: back).length - 1 = (front ++ back).length := by simp
  have closed : ∃ cell, cell.length = enc.size ∧ (if front.length < (front ++ value :: back).length - 1 then
        intsetMoveTail ⟨enc, (front ++ value :: back).length, cells enc (front ++ value :: back)⟩
          (front.length + 1) front.length
      else .ok ⟨enc, (front ++ value :: back).length, cells enc (front ++ value :: back)⟩) =
        .ok ⟨enc, (front ++ value :: back).length, cells enc front ++ cells enc back ++ cell⟩ := by
    split_ifs with more
    · exact intsetMoveTail_remove enc fits
    · obtain rfl : back = [] := by simpa [length] using more
      exact ⟨twosBytes enc.size value, length_twosBytes enc.size value, by simp [cells]⟩
  obtain ⟨cell, size, closed⟩ := closed
  have resized := intsetResize_eq ⟨enc, (front ++ value :: back).length, cells enc front ++ cells enc back ++ cell⟩
    (show (front ++ back).length < 2 ^ 32 by omega)
  have shrunk : zrealloc (cells enc front ++ cells enc back ++ cell) ((front ++ back).length * enc.size) =
      cells enc (front ++ back) := by
    rw [← cells_append, ← length_cells, zrealloc_shrink (by simp), take_left]
  rw [intsetRemove, if_neg (by simpa using narrow), searched]
  simp only [closed, ok_bind]
  simp only [length, resized, shrunk, ok_bind]
  refine ⟨_, rfl, rfl, rfl, rfl, ?_⟩
  rw [forall_mem_append, forall_mem_cons] at *
  exact ⟨old.1, old.2.2⟩

end Redis.IntegerSet

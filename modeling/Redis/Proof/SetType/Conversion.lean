/-
This file relates each encoding of a set to a finite set of strings and shows that a
conversion keeps the members.
-/

import Redis.Proof.SetType.Iteration

namespace Redis.SetType
open Foundation Redis.Dictionary Redis.IntegerSet Redis.Listpack List
variable {setDictType : DictType Sds} {server : Server} {set : SetObject} {strings : List Sds} {s : Sds} {is : Intset}
  {ints : Finset Int} {members : Finset Sds}
variable {a b v : Int} {values : List Int}

section Integers
theorem signedDecimal_inj (rangeA : -2 ^ 63 ≤ a ∧ a < 2 ^ 63) (rangeB : -2 ^ 63 ≤ b ∧ b < 2 ^ 63)
    (same : signedDecimal a = signedDecimal b) : a = b := by
  have first := lpStringToInt64_eq_some_iff.mpr ⟨rfl, rangeA⟩
  have second := lpStringToInt64_eq_some_iff.mpr ⟨rfl, rangeB⟩
  rw [same] at first
  exact Option.some.inj (first.symm.trans second)

theorem string2ll_eq_some_iff : string2ll s = some v ↔ s = signedDecimal v ∧ -2 ^ 63 ≤ v ∧ v < 2 ^ 63 :=
  lpStringToInt64_eq_some_iff

theorem int64_range (v : Int64) : -2 ^ 63 ≤ v.toInt ∧ v.toInt < 2 ^ 63 := ⟨v.minValue_le_toInt, v.toInt_lt⟩

/-- The digit count of a signed value is the length of its decimal form. -/
theorem sdigits10_eq (range : -2 ^ 63 ≤ v ∧ v < 2 ^ 63) : sdigits10 v = (signedDecimal v).length := by
  rw [sdigits10, signedDecimal]
  split
  · rw [digits10_eq (by omega), length_cons, show v.natAbs = (-v).toNat by omega]
  · exact digits10_eq (by omega)

/-- Parsing and printing a 64-bit integer are inverse through its canonical decimal form, for every buffer. -/
theorem string2ll_ll2string_inverse :
    (∀ (s : Sds) (v : Int), (string2ll s = some v ↔ s = signedDecimal v ∧ -2 ^ 63 ≤ v ∧ v < 2 ^ 63) ∧
      (lpStringToInt64 s = some v ↔ s = signedDecimal v ∧ -2 ^ 63 ≤ v ∧ v < 2 ^ 63)) ∧
    (∀ (v : Int64) (dst : List UInt8), ∃ written, ll2stringInto dst v.toInt = .ok (written,
        if (signedDecimal v.toInt).length < dst.length then (signedDecimal v.toInt).length else 0) ∧
      written.length = dst.length ∧ ((signedDecimal v.toInt).length < dst.length →
        written = signedDecimal v.toInt ++ 0 :: dst.drop ((signedDecimal v.toInt).length + 1))) ∧
    (∀ v : Int64, sdigits10 v.toInt = (signedDecimal v.toInt).length) ∧
    ∀ v : UInt64, digits10 v.toNat = (decimal v.toNat).length := by
  refine ⟨fun s v => ⟨string2ll_eq_some_iff, lpStringToInt64_eq_some_iff⟩, fun v dst => ?_,
    fun v => sdigits10_eq (int64_range v), fun v => digits10_eq (by have := v.toNat_lt; omega)⟩
  obtain ⟨lower, upper⟩ := int64_range v
  by_cases room : (signedDecimal v.toInt).length < dst.length
  · rw [if_pos room]
    refine ⟨_, ll2stringInto_eq dst lower (by omega) room, ?_, fun _ => rfl⟩
    rw [length_append, length_cons, length_drop]
    omega
  · rw [if_neg room]
    obtain ⟨written, converted, same⟩ := ll2stringInto_short dst lower (by omega) (by omega)
    exact ⟨written, converted, same, fun fits => absurd fits room⟩

theorem exists_int64 (range : -2 ^ 63 ≤ v ∧ v < 2 ^ 63) : ∃ w : Int64, w.toInt = v :=
  ⟨Int64.ofInt v, Int64.toInt_ofInt_of_le range.1 range.2⟩

variable (models : IntegerSet.Models is ints)
include models
theorem models_range (member : v ∈ ints) : -2 ^ 63 ≤ v ∧ v < 2 ^ 63 := by
  obtain ⟨values, stores, _, _, same⟩ := models
  exact inRange_of_holds (stores.holds v ((same v).mpr member))

theorem models_length : is.length = ints.card := by
  obtain ⟨values, stores, sorted, _, same⟩ := models
  have distinct : values.Nodup := sorted.imp fun less => less.ne
  rw [stores.length, ← toFinset_card_of_nodup distinct]
  congr 1
  ext v
  rw [mem_toFinset, same]

theorem mem_image_signedDecimal (range : -2 ^ 63 ≤ v ∧ v < 2 ^ 63) :
    signedDecimal v ∈ ints.image signedDecimal ↔ v ∈ ints := by
  rw [Finset.mem_image]
  constructor
  · rintro ⟨w, member, same⟩
    rwa [← signedDecimal_inj (models_range models member) range same]
  · exact fun member => ⟨v, member, rfl⟩

theorem card_image_signedDecimal : (ints.image signedDecimal).card = ints.card :=
  Finset.card_image_of_injOn fun _ first _ second same =>
    signedDecimal_inj (models_range models first) (models_range models second) same

theorem erase_image_signedDecimal (range : -2 ^ 63 ≤ v ∧ v < 2 ^ 63) :
    (ints.image signedDecimal).erase (signedDecimal v) = (ints.erase v).image signedDecimal := by
  ext text
  simp only [Finset.mem_erase, Finset.mem_image]
  constructor
  · rintro ⟨other, w, member, rfl⟩
    exact ⟨w, ⟨fun same => other (by rw [same]), member⟩, rfl⟩
  · rintro ⟨w, ⟨other, member⟩, rfl⟩
    exact ⟨fun same => other (signedDecimal_inj (models_range models member) range same), w, member, rfl⟩

omit models

theorem tailBytes_le (is : Intset) (op : IntsetOp) : tailBytes is op ≤ is.length * 8 := by
  have size := is.encoding.size_le
  have bound (count : Nat) (fewer : count ≤ is.length) : count * is.encoding.size ≤ is.length * 8 := Nat.mul_le_mul fewer size
  cases op <;> simp only [tailBytes]
  · split
    · omega
    · split
      · exact bound _ (Nat.sub_le _ _)
      · omega
  · split
    · omega
    · split
      · exact bound _ (Nat.sub_le _ _)
      · omega
  · omega
end Integers

/-- A set object stores a set of strings. The members of an intset are written in decimal. -/
def SetModels (setDictType : DictType Sds) (members : Finset Sds) : SetObject → Prop
  | .intset is => ∃ ints, IntegerSet.Models is ints ∧ is.length ≤ 2 ^ 30 ∧ members = ints.image signedDecimal
  | .listpack lp => ∃ elements, IsListpack lp elements ∧ elements.Nodup ∧ members = elements.toFinset
  | .ht d => ∃ map, d.Models setDictType map ∧ members = map.keys

/-- The members in the order of an iteration. -/
def Listed (setDictType : DictType Sds) (members : Finset Sds) (set : SetObject) : Prop :=
  ∃ strings, Lists setDictType strings set ∧ strings.Nodup ∧ strings.toFinset = members

theorem decimals_listed (stores : IntegerSet.Stores is values) (sorted : values.Pairwise (· < ·))
    (same : ∀ v, v ∈ values ↔ v ∈ ints) :
    (values.map signedDecimal).Nodup ∧ (values.map signedDecimal).toFinset = ints.image signedDecimal := by
  constructor
  · refine List.Nodup.map_on ?_ (sorted.imp fun less => less.ne)
    intro a memberA b memberB equal
    exact signedDecimal_inj (inRange_of_holds (stores.holds a memberA)) (inRange_of_holds (stores.holds b memberB)) equal
  · ext text
    simp only [mem_toFinset, mem_map, Finset.mem_image, same]

theorem listed_intset (models : IntegerSet.Models is ints) :
    Listed setDictType (ints.image signedDecimal) (.intset is) := by
  obtain ⟨values, stores, sorted, _, same⟩ := models
  exact ⟨values.map signedDecimal, ⟨values, stores, rfl⟩, decimals_listed stores sorted same⟩

theorem SetModels.listed (models : SetModels setDictType members set) : Listed setDictType members set := by
  cases set with
  | intset is =>
    obtain ⟨ints, stored, _, rfl⟩ := models
    exact listed_intset stored
  | listpack lp =>
    obtain ⟨elements, holds, distinct, rfl⟩ := models
    exact ⟨elements, holds, distinct, rfl⟩
  | ht d =>
    obtain ⟨map, stored, rfl⟩ := models
    refine ⟨d.entries.map Prod.fst, ⟨stored.invariant, rfl⟩, stored.invariant.distinct, ?_⟩
    ext text
    rw [mem_toFinset, Finmap.mem_keys, stored.represents.mem_keys_iff]

theorem dictAdd_new {K V : Type} [DecidableEq K] {type : DictType K} {d : Dict K V} {map : Finmap fun _ : K => V}
    (models : d.Models type map) (mode : DictResizeEnable) {key : K} (absent : key ∉ map.keys) (val : V) :
    Outcome (dictAdd type mode d key val) (· = .outOfMemory) fun result =>
      result.2 = true ∧ result.1.Models type (map.insert key val) := by
  have missing : map.lookup key = none := Finmap.lookup_eq_none.mpr (mt Finmap.mem_keys.mpr absent)
  refine (dictAdd_models models mode key val).mono fun result ⟨models', status⟩ => ?_
  rw [mapStep, missing] at models' status
  exact ⟨(DictReply.status.inj status).symm, models'⟩

/-- The assertion on `dictAdd` does not fail, because the members are distinct. -/
theorem convertToHt_spec (listed : Listed setDictType members set) (cap : Nat) :
    Outcome (convertToHt setDictType server set cap) (· = .outOfMemory) fun d =>
      ∃ map, d.Models setDictType map ∧ map.keys = members := by
  obtain ⟨strings, lists, distinct, rfl⟩ := listed
  have fresh : (dictExpand (dictCreate : Dict Sds Unit) cap).1.Models setDictType ∅ :=
    (Dict.models_dictCreate setDictType).kept (dictExpand_kept cap (Dict.invariant_dictCreate setDictType))
  refine lists.iterate (fun seen (d : Dict Sds Unit) => ∃ map, d.Models setDictType map ∧ map.keys = seen.toFinset) ⟨∅, fresh, rfl⟩ ?_
  rintro seen s rest entry d rfl stands ⟨map, models, keys⟩
  have absent : s ∉ map.keys := by
    rw [keys, mem_toFinset]
    exact fun member => (nodup_append.mp distinct).2.2 s member s mem_cons_self rfl
  rw [entryText_of stands]
  refine (dictAdd_new models server.dictCanResize absent ()).bind fun ⟨d', added⟩ ⟨success, models'⟩ => ?_
  obtain rfl : added = true := success
  refine ⟨_, models', ?_⟩
  rw [keys_insert, keys, toFinset_append, toFinset_cons, toFinset_nil, Finset.union_insert, Finset.union_empty]

theorem intsetMin_of (stores : IntegerSet.Stores is values) (some : values ≠ []) :
    intsetMin is = .ok (values.head some) :=
  stores.get (by rw [← head?_eq_getElem?, head?_eq_some_head some])

theorem intsetMax_of (stores : IntegerSet.Stores is values) (some : values ≠ []) :
    intsetMax is = .ok (values.getLast some) :=
  stores.get (by rw [stores.length, ← getLast?_eq_getElem?, getLast?_eq_some_getLast some])

theorem estimatedCapacity_ok (lists : Lists setDictType strings set) (cap : Nat) :
    ∃ estcap, estimatedCapacity set cap = .ok estcap := by
  cases set with
  | intset is =>
    obtain ⟨values, stores, _⟩ := lists
    rw [estimatedCapacity, stores.length]
    split
    · rename_i positive
      have some := ne_nil_of_length_pos positive
      rw [intsetMin_of stores some, intsetMax_of stores some]
      exact ⟨_, rfl⟩
    · exact ⟨_, rfl⟩
  | listpack lp => exact ⟨_, rfl⟩
  | ht d => exact ⟨_, rfl⟩

theorem convertToListpack_spec (lists : Lists setDictType strings set) (small : usedBytes strings < 2 ^ 32) (cap : Nat) :
    ∃ lp, convertToListpack set cap = .ok lp ∧ IsListpack lp strings := by
  obtain ⟨estcap, estimated⟩ := estimatedCapacity_ok lists cap
  refine Outcome.exists_ok ?_
  rw [convertToListpack, estimated, ok_bind]
  refine lists.iterate (fun seen lp => IsListpack lp seen) ⟨estcap, holds_lpNew le_rfl⟩ ?_
  rintro seen s rest entry lp rfl stands holds
  have fits : usedBytes (seen ++ [s]) < 2 ^ 32 := by
    refine (usedBytes_le_append (seen ++ [s]) rest).trans_lt ?_
    simpa using small
  cases entry with
  | string text =>
    obtain rfl : text = s := stands
    obtain ⟨lp', appended, holds'⟩ := append_spec holds fits
    dsimp only
    rw [appended]
    exact holds'
  | integer v =>
    obtain ⟨rfl, range⟩ := stands
    obtain ⟨lp', appended, holds'⟩ := appendInteger_spec holds range fits
    dsimp only
    rw [appended]
    exact holds'

/-- The encoded size of a positive integer grows with the integer. -/
theorem length_integer_mono (positive : 0 ≤ a) (le : a ≤ b) :
    (lpEncodeIntegerGetType a).length ≤ (lpEncodeIntegerGetType b).length := by
  unfold lpEncodeIntegerGetType
  split_ifs <;> simp <;> omega

/-- The encoded size of a negative integer shrinks with the integer. -/
theorem length_integer_anti (negative : b < 0) (le : a ≤ b) :
    (lpEncodeIntegerGetType b).length ≤ (lpEncodeIntegerGetType a).length := by
  unfold lpEncodeIntegerGetType
  split_ifs <;> simp <;> omega

theorem lpEstimate_eq (v : Int) (rep : Nat) :
    lpEstimateBytesRepeatedInteger v rep = lpHdrSize + ((lpEncodeIntegerGetType v).length + 1) * rep + 1 := by
  have short : (lpEncodeIntegerGetType v).length ≤ 127 := by
    unfold lpEncodeIntegerGetType
    split_ifs <;> simp
  rw [lpEstimateBytesRepeatedInteger, lpEncodeBacklen, if_pos short]
  rfl

theorem length_bodyBytes_le {elements : List Sds} {bound : Nat} (each : ∀ s ∈ elements, (entryBytes s).length ≤ bound) :
    (bodyBytes elements).length ≤ bound * elements.length := by
  induction elements with
  | nil => simp
  | cons s rest ih =>
    have first := each s mem_cons_self
    have others := ih fun t member => each t (mem_cons_of_mem s member)
    rw [bodyBytes_cons, length_append, length_cons, Nat.mul_succ]
    omega

/-- The larger estimate of the two end values is enough for all values between them. -/
theorem usedBytes_estimate (sorted : values.Pairwise (· < ·))
    (range : ∀ v ∈ values, -2 ^ 63 ≤ v ∧ v < 2 ^ 63) (some : values ≠ []) :
    usedBytes (values.map signedDecimal) ≤ max (lpEstimateBytesRepeatedInteger (values.getLast some) values.length)
        (lpEstimateBytesRepeatedInteger (values.head some) values.length) := by
  have weak : values.Pairwise (· ≤ ·) := sorted.imp fun less => less.le
  have ordered : ∀ v ∈ values, values.head some ≤ v ∧ v ≤ values.getLast some :=
    fun v member => ⟨weak.rel_head member, weak.rel_getLast member⟩
  have each : ∀ s ∈ values.map signedDecimal, (entryBytes s).length ≤
      max (lpEncodeIntegerGetType (values.getLast some)).length (lpEncodeIntegerGetType (values.head some)).length + 1 := by
    intro s member
    obtain ⟨v, present, rfl⟩ := mem_map.mp member
    obtain ⟨lower, upper⟩ := ordered v present
    rw [length_entryBytes_integer (range v present)]
    rcases le_or_gt 0 v with positive | negative
    · have := length_integer_mono positive upper
      omega
    · have := length_integer_anti negative lower
      omega
  have total := length_bodyBytes_le each
  rw [length_map] at total
  rw [lpEstimate_eq, lpEstimate_eq, usedBytes]
  rcases le_total (lpEncodeIntegerGetType (values.getLast some)).length (lpEncodeIntegerGetType (values.head some)).length
    with larger | larger
  · rw [max_eq_right larger] at total
    omega
  · rw [max_eq_left larger] at total
    omega

theorem entryInteger_of {entry : LpEntry} (stands : EntryOf s entry) (parsed : string2ll s = some v) :
    entryInteger entry = .ok v := by
  cases entry with
  | string text =>
    obtain rfl : text = s := stands
    rw [entryInteger, parsed]
  | integer w =>
    obtain ⟨rfl, range⟩ := stands
    obtain ⟨same, range'⟩ := string2ll_eq_some_iff.mp parsed
    rw [entryInteger, signedDecimal_inj range range' same]

/-- An iteration over distinct integers builds an intset, and its assertions do not fail. -/
theorem collectIntset_spec (listed : Listed setDictType members set) (few : members.card < 2 ^ 29)
    (integers : ∀ s ∈ members, (string2ll s).isSome) :
    ∃ is, iterate set (fun entry is => do
        let (is, success) ← intsetAdd is (← entryInteger entry)
        require .maybeConvertToIntset (success = true)
        return is) intsetNew = .ok is ∧ ∃ ints, IntegerSet.Models is ints ∧ members = ints.image signedDecimal := by
  obtain ⟨strings, lists, distinct, rfl⟩ := listed
  rw [toFinset_card_of_nodup distinct] at few
  refine Outcome.exists_ok (lists.iterate (fun seen is =>
    ∃ ints, IntegerSet.Models is ints ∧ seen.toFinset = ints.image signedDecimal) ⟨∅, models_intsetNew, rfl⟩ ?_)
  rintro seen s rest entry is rfl stands ⟨ints, models, same⟩
  obtain ⟨v, parsed⟩ := Option.isSome_iff_exists.mp (integers s (by simp))
  obtain ⟨rfl, range⟩ := string2ll_eq_some_iff.mp parsed
  obtain ⟨w, rfl⟩ := exists_int64 range
  obtain ⟨before, _, cross⟩ := nodup_append.mp distinct
  have absent : w.toInt ∉ ints := by
    rw [← mem_image_signedDecimal models range, ← same, mem_toFinset]
    exact fun member => cross _ member _ mem_cons_self rfl
  have count : is.length = seen.length := by
    rw [models_length models, ← card_image_signedDecimal models, ← same, toFinset_card_of_nodup before]
  have fits : MoveFits is (.add w) := by
    have tail := tailBytes_le is (.add w)
    rw [length_append] at few
    exact ⟨by omega, by omega⟩
  obtain ⟨next, added, models', _⟩ := intsetAdd_models models fits
  rw [entryInteger_of stands parsed, ok_bind, added, ok_bind]
  dsimp only
  rw [require_of (decide_eq_true absent)]
  refine ⟨_, models', ?_⟩
  rw [toFinset_append, same, Finset.image_insert, toFinset_cons, toFinset_nil, Finset.union_insert,
    Finset.union_empty]

end Redis.SetType

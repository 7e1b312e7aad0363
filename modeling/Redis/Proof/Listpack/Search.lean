import Redis.Construction.Listpack.Search
import Redis.Proof.Listpack.Refinement
import Redis.Proof.Listpack.Safety

namespace Redis.Listpack
open Foundation List
variable {capacity : Nat} {lp : Memory} {elements front back : List (List UInt8)} {s x : List UInt8}
variable {v : Int} {byte : UInt8} {size : Nat} {result : Checked (Option Memory)}

/-- The value at an element stands for its string. -/
def Reads (lp s : List UInt8) : LpValue → Prop
  | .string start count => readBytes lp start count = .ok s ∧ count = s.length
  | .integer value => s = signedDecimal value ∧ -2 ^ 63 ≤ value ∧ value < 2 ^ 63

theorem reads_integer {value : Int} (text : ll2string lpIntbufSize value = .ok s) (lower : -2 ^ 63 ≤ value)
    (upper : value < 2 ^ 63) : Reads lp s (.integer value) := by
  have same := ll2string_eq lower (show value < 2 ^ 64 by omega)
  exact ⟨Except.ok.inj (text.symm.trans same), lower, upper⟩

theorem lpIntegerValue_bounds {count uval : Nat} (positive : 0 < count) (long : count ≤ 8) (bound : uval < 256 ^ count) :
    -2 ^ 63 ≤ lpIntegerValue uval (2 ^ (8 * count - 1)) (2 ^ (8 * count) - 1) ∧
      lpIntegerValue uval (2 ^ (8 * count - 1)) (2 ^ (8 * count) - 1) < 2 ^ 63 := by
  interval_cases count <;> unfold lpIntegerValue <;> split <;> omega

theorem reads_wide {p : Nat} (count : Nat) (positive : 0 < count) (long : count ≤ 8) (got : (do
      let bytes ← readBytes lp (p + 1) count
      ll2string lpIntbufSize (lpIntegerValue (leValue bytes) (2 ^ (8 * count - 1)) (2 ^ (8 * count) - 1))) = .ok s) :
    ∃ bytes, readBytes lp (p + 1) count = .ok bytes ∧
      Reads lp s (.integer (lpIntegerValue (leValue bytes) (2 ^ (8 * count - 1)) (2 ^ (8 * count) - 1))) := by
  obtain ⟨bytes, read, text⟩ := exists_of_bind_eq_ok got
  have bound := leValue_lt bytes
  rw [← length_of_readBytes read] at bound
  obtain ⟨lower, upper⟩ := lpIntegerValue_bounds positive long bound
  exact ⟨bytes, read, reads_integer text lower upper⟩

theorem length_of_parsed (parsed : lpStringToInt64 s = some v) : 0 < s.length ∧ s.length < 32 := by
  rw [lpStringToInt64] at parsed
  split at parsed
  · cases parsed
  · rename_i length
    simp only [longStrSize] at length
    omega

theorem lpGetWithSize_of {p : Nat} (read : readCell lp p = .ok byte)
    (known : lpEncodingOf byte ≠ .eof ∧ lpEncodingOf byte ≠ .invalid) (got : lpGet lp p = .ok s)
    (sized : lpCurrentEncodedSizeUnsafe lp p = .ok size)
    (short : ∀ bytes, lpEncodingOf byte = .str32 → readBytes lp (p + 1) 4 = .ok bytes → 5 + leValue bytes < 2 ^ 32)
    (entrySize : Nat) :
    ∃ value, lpGetWithSize lp p entrySize = .ok (value, size + (lpEncodeBacklen size).length) ∧ Reads lp s value := by
  rw [lpGet, read, ok_bind] at got
  rw [lpCurrentEncodedSizeUnsafe, read, ok_bind] at sized
  rw [lpGetWithSize, read, ok_bind]
  cases kind : lpEncodingOf byte <;> rw [kind] at got sized known <;> dsimp only at got sized ⊢
  case eof => exact absurd rfl known.1
  case invalid => exact absurd rfl known.2
  case uint7 =>
    cases sized
    have bound := (byte &&& 0x7F).toNat_lt
    have value : lpIntegerValue (byte &&& 0x7F).toNat uint64Max 0 = (byte &&& 0x7F).toNat := by
      rw [lpIntegerValue, if_neg (by simp only [uint64Max]; omega)]
    exact ⟨_, rfl, reads_integer got (by rw [value]; omega) (by rw [value]; omega)⟩
  case str6 =>
    cases sized
    refine ⟨.string (p + 1) (byte &&& 0x3F).toNat, ?_, got, length_of_readBytes got⟩
    rw [add_comm (byte &&& 0x3F).toNat 1]
    rfl
  case int13 =>
    cases sized
    obtain ⟨second, read', text⟩ := exists_of_bind_eq_ok got
    rw [read']
    refine ⟨_, rfl, reads_integer text ?_ ?_⟩
    all_goals
      unfold lpIntegerValue
      split <;> omega
  case int16 =>
    cases sized
    obtain ⟨bytes, read', reads⟩ := reads_wide 2 (by decide) (by decide) got
    rw [read']
    exact ⟨_, rfl, reads⟩
  case int24 =>
    cases sized
    obtain ⟨bytes, read', reads⟩ := reads_wide 3 (by decide) (by decide) got
    rw [read']
    exact ⟨_, rfl, reads⟩
  case int32 =>
    cases sized
    obtain ⟨bytes, read', reads⟩ := reads_wide 4 (by decide) (by decide) got
    rw [read']
    exact ⟨_, rfl, reads⟩
  case int64 =>
    cases sized
    obtain ⟨bytes, read', reads⟩ := reads_wide 8 (by decide) (by decide) got
    rw [read']
    exact ⟨_, rfl, reads⟩
  case str12 =>
    obtain ⟨second, read', got⟩ := exists_of_bind_eq_ok got
    rw [read', ok_bind] at sized ⊢
    cases sized
    refine ⟨.string (p + 2) ((byte &&& 0xF).toNat * 256 + second.toNat), ?_, got, length_of_readBytes got⟩
    rw [add_comm ((byte &&& 0xF).toNat * 256 + second.toNat) 2]
    rfl
  case str32 =>
    obtain ⟨bytes, read', got⟩ := exists_of_bind_eq_ok got
    rw [read', ok_bind] at sized ⊢
    cases sized
    refine ⟨.string (p + 5) (leValue bytes), ?_, got, length_of_readBytes got⟩
    rw [Nat.mod_eq_of_lt (short bytes kind read'), add_comm (leValue bytes) 5]
    rfl

theorem known_of_header (other : byte ≠ lpEof) (positive : 0 < lpCurrentEncodedSizeBytes byte) :
    lpEncodingOf byte ≠ .eof ∧ lpEncodingOf byte ≠ .invalid := by
  constructor
  · intro kind
    simp only [lpEncodingOf] at kind
    split_ifs at kind
  · intro kind
    simp [lpCurrentEncodedSizeBytes, kind] at positive

theorem EntryAt.getWithSize {bytes p q : Nat} (entry : EntryAt lp bytes p q) (within : bytes ≤ lp.length)
    (got : lpGet lp p = .ok s) (entrySize : Nat) :
    ∃ value, lpGetWithSize lp p entrySize = .ok (value, q - p) ∧ Reads lp s value := by
  obtain ⟨byte, cell, other, positive, room⟩ := entry.header
  obtain ⟨size, sized, _, same, _⟩ := entry.size
  rw [show q - p = size + (lpEncodeBacklen size).length by omega]
  refine lpGetWithSize_of (readCell_of cell) (known_of_header other positive) got sized ?_ entrySize
  intro length kind read
  rw [lpCurrentEncodedSizeBytes, kind] at room
  dsimp only at room
  have inside : p + 5 ≤ lp.length := by omega
  rw [readBytes_of (by omega)] at read
  rw [← Except.ok.inj read]
  exact entry.size_str32 (eq_marker_of_str32 kind ▸ cell) inside

theorem Holds.getWithSize (holds : Holds capacity lp (front ++ x :: back)) (entrySize : Nat) :
    ∃ value, lpGetWithSize lp (entryOffset front) entrySize = .ok (value, (entryBytes x).length) ∧ Reads lp x value := by
  have spec := holds.entry.getWithSize holds.within holds.get entrySize
  rwa [entryOffset_append_singleton, Nat.add_sub_cancel_left] at spec

/-- The entry that a caller sees stands for a string. -/
def EntryOf (s : List UInt8) : LpEntry → Prop
  | .string text => text = s
  | .integer value => s = signedDecimal value ∧ -2 ^ 63 ≤ value ∧ value < 2 ^ 63

theorem Holds.getValue (holds : Holds capacity lp (front ++ x :: back)) :
    ∃ entry, lpGetValue lp (entryOffset front) = .ok entry ∧ EntryOf x entry := by
  obtain ⟨value, got, reads⟩ := holds.getWithSize 0
  rw [lpGetValue, got, ok_bind]
  cases value with
  | string start count =>
    refine ⟨.string x, ?_, rfl⟩
    dsimp only
    rw [reads.1]
    rfl
  | integer value => exact ⟨.integer value, rfl, reads⟩

section RoundTrip
theorem length_lpEncodeIntegerGetType (v : Int) : (lpEncodeIntegerGetType v).length ≤ 9 := by
  unfold lpEncodeIntegerGetType
  split_ifs <;> simp

theorem length_bytes_le (s : List UInt8) : (LpElement.string s).bytes.length ≤ max 9 (5 + s.length) := by
  rw [← enclen_string, LpElement.enclen, lpEncodeGetType]
  cases lpStringToInt64 s with
  | some v => exact (length_lpEncodeIntegerGetType v).trans (le_max_left ..)
  | none =>
    dsimp only
    split_ifs <;> omega

variable {enc : List UInt8}

/-- The entry is read back wherever it stands: as its string, as a value with the size of the entry,
as the size of its encoding, and backward from its last byte. -/
def ReadsBack (enc s : List UInt8) (stands : Memory → LpValue → Prop) : Prop :=
  ∀ left right entrySize, let entry := enc ++ lpEncodeBacklen enc.length
    let lp := left ++ entry ++ right
    lpGet lp left.length = .ok s ∧ lpCurrentEncodedSizeUnsafe lp left.length = .ok enc.length ∧
      (∃ value, lpGetWithSize lp left.length entrySize = .ok (value, entry.length) ∧ stands lp value) ∧
      lpDecodeBacklen lp (left.length + entry.length - 1) = .ok enc.length

theorem Encodes.readsBack (encodes : Encodes enc s) (small : enc.length < 2 ^ 32) (short : 5 + s.length < 2 ^ 32) :
    ReadsBack enc s (Reads · s) := by
  intro left right entrySize
  have size := encodes.size left (lpEncodeBacklen enc.length ++ right)
  have got := encodes.get left (lpEncodeBacklen enc.length ++ right)
  have backward := lpDecodeBacklen_encode enc.length (left ++ enc) right small
  obtain ⟨byte, rest, starts, other, positive, _⟩ := encodes.header
  have read := readCell_middle left (lpEncodeBacklen enc.length ++ right) byte rest
  rw [← starts] at read
  rw [length_append, add_assoc] at backward
  simp only [append_assoc] at size got read backward ⊢
  rw [length_append]
  refine ⟨got, size, lpGetWithSize_of read (known_of_header other positive) got size ?_ entrySize, backward⟩
  intro bytes kind read'
  rw [lpGet, read, ok_bind, kind] at got
  rw [read'] at got
  have count := length_of_readBytes got
  omega

theorem integer_header (v : Int) :
    ∃ byte rest, lpEncodeIntegerGetType v = byte :: rest ∧ lpEncodingOf byte ∉ [.str6, .str12, .str32] := by
  unfold lpEncodeIntegerGetType
  split_ifs with small short
  · refine ⟨_, _, rfl, ?_⟩
    rw [(lpEncodingOf_uint7 v.toNat (by omega)).1]
    decide
  · refine ⟨_, _, rfl, ?_⟩
    rw [(lpEncodingOf_int13 (wrapNegative 13 v / 256) (by unfold wrapNegative; split <;> omega)).1]
    decide
  all_goals exact ⟨_, _, rfl, by decide⟩

theorem integer_of_encoding {p entrySize : Nat} {value : LpValue} (read : readCell lp p = .ok byte)
    (numeric : lpEncodingOf byte ∉ [.str6, .str12, .str32])
    (got : lpGetWithSize lp p entrySize = .ok (value, size)) : ∃ w, value = .integer w := by
  rw [lpGetWithSize, read, ok_bind] at got
  cases kind : lpEncodingOf byte <;> rw [kind] at got numeric <;> dsimp only at got
  case str6 | str12 | str32 => exact absurd (by decide) numeric
  case uint7 | eof | invalid =>
    cases got
    exact ⟨_, rfl⟩
  all_goals
    obtain ⟨_, _, rest⟩ := exists_of_bind_eq_ok got
    cases rest
    exact ⟨_, rfl⟩

theorem readsBack_integer (lower : -2 ^ 63 ≤ v) (upper : v < 2 ^ 63) :
    ReadsBack (lpEncodeIntegerGetType v) (signedDecimal v) fun _ value => value = .integer v := by
  have parsed := lpStringToInt64_eq_some_iff.mpr ⟨rfl, lower, upper⟩
  have length := length_of_parsed parsed
  have small := length_lpEncodeIntegerGetType v
  intro left right entrySize
  obtain ⟨got, size, ⟨value, read, reads⟩, backward⟩ :=
    (encodes_integer lower upper).readsBack (by omega) (by omega) left right entrySize
  refine ⟨got, size, ⟨value, read, ?_⟩, backward⟩
  obtain ⟨byte, rest, starts, numeric⟩ := integer_header v
  have cell := readCell_middle left (lpEncodeBacklen (lpEncodeIntegerGetType v).length ++ right) byte rest
  rw [← starts, append_assoc, ← append_assoc (lpEncodeIntegerGetType v), ← append_assoc] at cell
  obtain ⟨w, rfl⟩ := integer_of_encoding cell numeric read
  have same := lpStringToInt64_eq_some_iff.mpr reads
  rw [parsed] at same
  exact congrArg LpValue.integer (Option.some.inj same).symm

/-- A string and an integer survive their encodings, and the three computed sizes are the number of
written bytes. -/
theorem entry_round_trip (s : List UInt8) (short : s.length < 2 ^ 32 - 5) (v : Int64) :
    (lpEncodeGetType s).2 = (LpElement.string s).bytes.length ∧ ReadsBack (LpElement.string s).bytes s (Reads · s) ∧
    (∀ w, lpStringToInt64 s = some w →
      (lpEncodeGetType s).1 = some (lpEncodeIntegerGetType w) ∧ ll2string lpIntbufSize w = .ok s) ∧
    ∃ text, ll2string lpIntbufSize v.toInt = .ok text ∧
      ReadsBack (lpEncodeIntegerGetType v.toInt) text fun _ value => value = .integer v.toInt := by
  have lower := v.le_toInt
  have upper := v.toInt_lt
  refine ⟨enclen_string s, ?_, fun w parsed => ?_, _, ll2string_eq lower (by omega), readsBack_integer lower upper⟩
  · have small := length_bytes_le s
    exact (encodes_element (by omega)).readsBack (by omega) (by omega)
  · obtain ⟨same, lower, upper⟩ := lpStringToInt64_eq_some_iff.mp parsed
    rw [lpEncodeGetType, parsed]
    refine ⟨rfl, ?_⟩
    rw [same]
    exact ll2string_eq lower (by omega)

/-- A string of one letter and a small integer. -/
theorem entry_round_trip_sample : ReadsBack [0x81, 97] [97] (Reads · [97]) :=
  (entry_round_trip [97] (by decide) 5).2.1
end RoundTrip

/-- The position of the first of some elements, if there is one. -/
def startOf (front back : List (List UInt8)) : Option Nat := back.head?.map fun _ => entryOffset front

theorem head?_entryOffsets (front back : List (List UInt8)) :
    (entryOffsets (entryOffset front) back).head? = startOf front back := by
  cases back <;> rfl

theorem Holds.first (holds : Holds capacity lp elements) : lpFirst lp = .ok (startOf [] elements) := by
  rw [holds.linked.first, ← head?_entryOffsets]
  rfl

theorem Holds.chainFrom (holds : Holds capacity lp (front ++ back)) :
    Chain lp (usedBytes (front ++ back)) (entryOffset front) (entryOffsets (entryOffset front) back)
      (usedBytes (front ++ back) - 1) := by
  induction front using List.reverseRecOn generalizing back with
  | nil => exact holds.linked.chain
  | append_singleton init x ih =>
    rw [append_assoc] at holds ⊢
    have chain := ih holds
    rw [singleton_append, entryOffsets, ← entryOffset_append_singleton] at chain
    cases chain with
    | cons entry rest =>
      have own := (show Holds capacity lp (init ++ x :: back) from holds).entry.skip
      rwa [Except.ok.inj (entry.skip.symm.trans own)] at rest

theorem Holds.next (holds : Holds capacity lp (front ++ x :: back)) :
    lpNext lp (entryOffset front) = .ok (startOf (front ++ [x]) back) := by
  have chain := holds.chainFrom
  rw [entryOffsets, ← entryOffset_append_singleton] at chain
  rw [chain.next holds.linked.total holds.linked.eof, head?_entryOffsets]

section Find
/-- The position of a string among the elements that a search with skips compares. -/
def findStride (s : List UInt8) (skip : Nat) : Nat → List (List UInt8) → Option Nat
  | _, [] => none
  | 0, x :: rest => if x = s then some 0 else (findStride s skip skip rest).map (· + 1)
  | skipcnt + 1, _ :: rest => (findStride s skip skipcnt rest).map (· + 1)

theorem findMatches_eq {bytes p : Nat} (lower : lpHdrSize ≤ p) (inside : p + size < bytes) {value : LpValue}
    (reads : Reads lp x value) : findMatches lp s bytes p size value = .ok (decide (x = s)) := by
  cases value with
  | string start count =>
    obtain ⟨read, rfl⟩ := reads
    rw [findMatches, require_of ⟨lower, inside⟩]
    by_cases same : s.length = x.length
    · rw [if_pos same, read]
      rfl
    · have different : x ≠ s := fun equal => same (by rw [equal])
      rw [if_neg same, decide_eq_false different]
      rfl
  | integer value =>
    obtain ⟨rfl, lower, upper⟩ := reads
    have parsed : (s.length < 32 ∧ s.length ≠ 0 ∧ lpStringToInt64 s = some value) ↔ signedDecimal value = s := by
      constructor
      · rintro ⟨_, _, parsed⟩
        exact (lpStringToInt64_eq_some_iff.mp parsed).1.symm
      · rintro rfl
        have parsed := lpStringToInt64_eq_some_iff.mpr ⟨rfl, lower, upper⟩
        have length := length_of_parsed parsed
        exact ⟨length.2, length.1.ne', parsed⟩
    rw [findMatches]
    exact congrArg Except.ok (decide_eq_decide.mpr parsed)

variable {bytes p stop : Nat} {offsets : List Nat} {strings : List (List UInt8)}

theorem Chain.check (chain : Chain lp bytes p offsets stop) (lower : lpHdrSize ≤ stop) (upper : stop < bytes)
    (eof : readCell lp stop = .ok lpEof) :
    findCheck lp bytes p = .ok () ∧ ∃ byte, readCell lp p = .ok byte ∧ (byte = lpEof ↔ offsets = []) := by
  rw [findCheck]
  cases chain with
  | nil =>
    refine ⟨?_, lpEof, eof, by simp⟩
    split
    · rw [lpAssertValidEntry, lpValidateNext, if_neg (by rw [outOfRange]; omega), eof, ok_bind, if_pos rfl]
      rfl
    · exact require_of ⟨lower, upper⟩
  | cons entry rest =>
    obtain ⟨byte, read, other⟩ := entry.read_ne_eof
    refine ⟨?_, byte, read, by simp [other]⟩
    split
    · exact entry.assert_valid
    · exact require_of ⟨entry.lower, entry.lt.trans entry.upper⟩

/-- The loop from an entry compares the strings of the entries in its stride. -/
theorem findLoop_spec (s : List UInt8) (skip : Nat) {fuel : Nat} (skipcnt entrySize : Nat) (within : bytes ≤ lp.length)
    (chain : Chain lp bytes p offsets stop) (lower : lpHdrSize ≤ stop) (upper : stop < bytes)
    (eof : readCell lp stop = .ok lpEof) (texts : List.Forall₂ (fun p x => lpGet lp p = .ok x) offsets strings)
    (some : offsets ≠ []) (fueled : offsets.length ≤ fuel) :
    findLoop lp s bytes skip fuel p skipcnt entrySize =
      .ok ((findStride s skip skipcnt strings).bind (offsets[·]?)) := by
  induction chain generalizing fuel skipcnt entrySize strings with
  | nil => exact absurd rfl some
  | @cons p q stop offsets entry chain ih =>
    obtain _ | fuel := fuel
    · simp at fueled
    cases texts with
    | @cons _ x _ strings text texts =>
      obtain ⟨check, byte, read, isEnd⟩ := chain.check lower upper eof
      have rest (skipcnt entrySize : Nat) : (if byte = lpEof then return none
          else findLoop lp s bytes skip fuel q skipcnt entrySize : Checked (Option Nat)) =
          .ok (((findStride s skip skipcnt strings).map (· + 1)).bind ((p :: offsets)[·]?)) := by
        by_cases ends : offsets = []
        · subst ends
          cases texts
          rw [if_pos (isEnd.mpr rfl)]
          cases skipcnt <;> rfl
        · rw [if_neg (mt isEnd.mp ends), ih skipcnt entrySize lower upper eof texts ends (by simpa using fueled),
            Option.bind_map]
          rfl
      cases skipcnt with
      | zero =>
        obtain ⟨value, got, reads⟩ := entry.getWithSize within text entrySize
        have next : p + (q - p) = q := Nat.add_sub_cancel' entry.lt.le
        rw [findLoop, got, ok_bind]
        dsimp only
        rw [findMatches_eq entry.lower (next.trans_lt entry.upper) reads, next, findStride]
        by_cases same : x = s
        · rw [decide_eq_true same, if_pos same]
          rfl
        · rw [decide_eq_false same, check, read, if_neg same]
          exact rest skip _
      | succ skipcnt =>
        rw [findLoop, entry.skip, ok_bind, check, read]
        exact rest skipcnt entrySize

theorem Linked.find {front : List Nat} (linked : Linked lp bytes (front ++ p :: offsets))
    (texts : List.Forall₂ (fun p x => lpGet lp p = .ok x) (p :: offsets) strings) (small : s.length < 2 ^ 32)
    (skip : Nat) : lpFind lp p s skip = .ok ((findStride s skip 0 strings).bind ((p :: offsets)[·]?)) := by
  obtain ⟨q, first, chain⟩ := linked.chain.split
  obtain rfl : q = p := by cases chain; rfl
  have bounded := chain.le
  have lower := first.le
  have within := linked.within
  have positive := linked.nonempty
  rw [lpFind, Nat.mod_eq_of_lt small, take_length, linked.total]
  exact findLoop_spec s skip 0 _ within chain (by omega) (by omega) linked.eof texts (by simp) (by omega)

theorem forall₂_lpGet (front back : List (List UInt8)) (holds : Holds capacity lp (front ++ back)) :
    List.Forall₂ (fun p x => lpGet lp p = .ok x) (entryOffsets (entryOffset front) back) back := by
  induction back generalizing front with
  | nil => exact .nil
  | cons x back ih =>
    rw [entryOffsets, ← entryOffset_append_singleton]
    exact .cons holds.get (ih (front ++ [x]) (by rwa [append_assoc]))

theorem Holds.find (holds : Holds capacity lp (x :: elements)) (small : s.length < 2 ^ 32) (skip : Nat) :
    lpFind lp lpHdrSize s skip =
      .ok ((findStride s skip 0 (x :: elements)).bind ((entryOffsets lpHdrSize (x :: elements))[·]?)) := by
  have linked : Linked lp _ ([] ++ entryOffsets lpHdrSize (x :: elements)) := holds.linked
  exact linked.find (forall₂_lpGet [] (x :: elements) holds) small skip

theorem findStride_eq {skipcnt skip : Nat} (bounded : skipcnt ≤ skip) (strings : List (List UInt8)) :
    findStride s skip skipcnt strings = (List.range strings.length).find? fun i =>
      decide ((i + (skip + 1 - skipcnt)) % (skip + 1) = 0 ∧ strings[i]? = some s) := by
  induction strings generalizing skipcnt with
  | nil => cases skipcnt <;> rfl
  | cons x strings ih =>
    rw [length_cons, range_succ_eq_map, find?_cons, find?_map]
    cases skipcnt with
    | zero =>
      rw [findStride, ih le_rfl]
      by_cases same : x = s
      · simp [same]
      · simp [same]
    | succ skipcnt =>
      have first : (0 + (skip + 1 - (skipcnt + 1))) % (skip + 1) ≠ 0 := by
        rw [Nat.mod_eq_of_lt (by omega)]
        omega
      have shift (i : Nat) : i + 1 + (skip + 1 - (skipcnt + 1)) = i + (skip + 1 - skipcnt) := by omega
      rw [findStride, ih (by omega), decide_eq_false (fun both => first both.1)]
      simp only [Function.comp_def, shift, getElem?_cons_succ]

/-- In a listpack that deep validation accepts, a search from any entry returns the first entry at a
distance that is a multiple of the stride and whose string is the sought one. -/
theorem lpFind_first (lp : Memory) : Outcome (lpValidateIntegrity lp lp.length true) (fun _ => False) fun accepted =>
      accepted = true → ∃ offsets strings, walkForward lp = .ok offsets ∧
        List.Forall₂ (fun p x => lpGet lp p = .ok x) offsets strings ∧
        ∀ (k p : Nat) (s : Payload) (skip : Nat), offsets[k]? = some p → lpFind lp p s.1 skip =
          .ok (((List.range (offsets.length - k)).find? fun i =>
            decide (i % (skip + 1) = 0 ∧ strings[k + i]? = some s.1)).bind fun i => offsets[k + i]?) := by
  refine (lpValidateIntegrity_spec lp).mono fun accepted spec holds => ?_
  obtain ⟨offsets, linked, _⟩ := spec holds
  set text := fun p => (lpGet lp p).toOption.getD []
  have texts : List.Forall₂ (fun p x => lpGet lp p = .ok x) offsets (offsets.map text) := by
    rw [forall₂_map_right_iff, forall₂_same]
    intro p member
    obtain ⟨q, entry⟩ := linked.chain.entry_of_mem member
    obtain ⟨x, got⟩ := entry.get le_rfl
    simp only [text, got]
    rfl
  refine ⟨offsets, _, linked.walkForward, texts, fun k p s skip found => ?_⟩
  obtain ⟨inside, same⟩ := List.getElem?_eq_some_iff.mp found
  have split : offsets = offsets.take k ++ p :: offsets.drop (k + 1) := by
    rw [← same, getElem_cons_drop, take_append_drop]
  rw [split] at linked
  have later : p :: offsets.drop (k + 1) = offsets.drop k := by rw [← same, getElem_cons_drop]
  have below := forall₂_drop k texts
  rw [← later] at below
  rw [linked.find below s.2 skip, findStride_eq (Nat.zero_le _)]
  simp [later]
end Find

/-- A listpack of any capacity with these elements. -/
def IsListpack (lp : Memory) (elements : List (List UInt8)) : Prop := ∃ capacity, Holds capacity lp elements

theorem Updated.exists_listpack (updated : Updated capacity result elements)
    (small : usedBytes elements < 2 ^ 32) : ∃ lp, result = .ok (some lp) ∧ Holds capacity lp elements := by
  rwa [Updated, if_neg (by simp only [uint32Max]; omega)] at updated

theorem Holds.appendInteger (holds : Holds capacity lp elements) {value : Int} (lower : -2 ^ 63 ≤ value)
    (upper : value < 2 ^ 63) : Updated capacity (lpAppendInteger lp value) (elements ++ [signedDecimal value]) :=
  holds.insertEnd (stores_integer lower upper)

theorem lpSafeToAdd_none (add : Nat) : lpSafeToAdd none add = .ok (decide (add ≤ listpackMaxSafetySize)) := by
  unfold lpSafeToAdd
  rw [show (pure 0 : Checked Nat) = .ok 0 from rfl, ok_bind, Nat.zero_add]
  rfl

theorem Holds.safeToAdd (holds : Holds capacity lp elements) (add : Nat) :
    lpSafeToAdd (some lp) add = .ok (decide (usedBytes elements + add ≤ listpackMaxSafetySize)) := by
  unfold lpSafeToAdd
  dsimp only
  rw [holds.total]
  rfl

theorem Holds.shrinkToFit (holds : Holds capacity lp elements) :
    ∃ lp', lpShrinkToFit lp = .ok lp' ∧ Holds capacity lp' elements := by
  obtain ⟨numele, slack, rfl, counts, small, _⟩ := holds
  have size : usedBytes elements = lpHdrSize + (bodyBytes elements ++ [lpEof]).length := by
    simp only [usedBytes, length_append, length_singleton]
    omega
  refine ⟨block numele elements [], ?_, holds_block capacity counts small⟩
  rw [block, ← singleton_append, ← append_assoc]
  exact lpShrinkToFit_headed (bodyBytes elements ++ [lpEof]) slack size small

theorem usedBytes_append (elements : List (List UInt8)) (s : List UInt8) :
    usedBytes (elements ++ [s]) = usedBytes elements + (entryBytes s).length := by
  simp only [usedBytes, bodyBytes_append, bodyBytes_cons, bodyBytes_nil, append_nil, length_append]
  omega

theorem length_entryBytes_integer (range : -2 ^ 63 ≤ v ∧ v < 2 ^ 63) :
    (entryBytes (signedDecimal v)).length = (lpEncodeIntegerGetType v).length + 1 := by
  have short : (lpEncodeIntegerGetType v).length ≤ 127 := (length_lpEncodeIntegerGetType v).trans (by decide)
  rw [entryBytes, bytes_signedDecimal range.1 range.2, length_append, lpEncodeBacklen, if_pos short]
  rfl

theorem length_entryBytes_le (s : List UInt8) : (entryBytes s).length ≤ s.length + 14 := by
  have backlen := (length_lpEncodeBacklen (LpElement.string s).bytes.length).2
  have encoded := length_bytes_le s
  rw [entryBytes, length_append]
  omega

/-- The loop of the random selection picks an element, and at the latest the last one. -/
theorem nextRandomLoop_spec (rand : Nat → Nat) (i : Nat) (holds : Holds capacity lp (front ++ back)) (some : back ≠ []) :
    ∃ first x rest, back = first ++ x :: rest ∧
      nextRandomLoop lp rand 1 back.length i (startOf front back) = .ok (.some (entryOffset (front ++ first))) := by
  induction back generalizing front i with
  | nil => exact absurd rfl some
  | cons x back ih =>
    rw [length_cons, startOf, head?_cons, Option.map_some, nextRandomLoop]
    by_cases picked : rand i % (randMax + 1) * (back.length + 1) ≤ 1 * randMax
    · refine ⟨[], x, back, rfl, ?_⟩
      rw [if_pos picked, append_nil]
      rfl
    · have last : back ≠ [] := by
        rintro rfl
        have bound := Nat.mod_lt (rand i) (show 0 < randMax + 1 by omega)
        simp only [length_nil] at picked
        omega
      have behind : Holds capacity lp ((front ++ [x]) ++ back) := by simpa using holds
      obtain ⟨first, y, rest, split, found⟩ := ih (i + 1) behind last
      refine ⟨x :: first, y, rest, by rw [split]; rfl, ?_⟩
      rw [if_neg picked, holds.next, ok_bind, found, append_assoc]
      rfl

theorem Holds.nextRandom (holds : Holds capacity lp elements) (some : elements ≠ []) (rand : Nat → Nat) :
    ∃ front x back lp', elements = front ++ x :: back ∧
      lpNextRandom lp rand (startOf [] elements) 1 = .ok (.some (entryOffset front), lp') ∧
      Holds capacity lp' elements := by
  obtain ⟨lp', measured, holds'⟩ := holds.length
  obtain ⟨front, x, back, split, found⟩ := nextRandomLoop_spec rand 0
    (show Holds capacity lp' ([] ++ elements) from holds') some
  refine ⟨front, x, back, lp', split, ?_, holds'⟩
  rw [lpNextRandom, measured, ok_bind]
  dsimp only
  rw [found]
  rfl

theorem usedBytes_le_append (front back : List (List UInt8)) : usedBytes front ≤ usedBytes (front ++ back) := by
  simp only [usedBytes, bodyBytes_append, length_append]
  omega

theorem nonNull_of {lp : Memory} (returned : result = .ok (some lp)) : nonNull result = .ok lp := by
  rw [returned]
  rfl

theorem append_spec {lp : Memory} {elements : List (List UInt8)} (holds : IsListpack lp elements)
    (small : usedBytes (elements ++ [s]) < 2 ^ 32) :
    ∃ lp', nonNull (lpAppend lp s) = .ok lp' ∧ IsListpack lp' (elements ++ [s]) := by
  obtain ⟨capacity, holds⟩ := holds
  obtain ⟨lp', appended, holds'⟩ := (holds.append s).exists_listpack small
  exact ⟨lp', nonNull_of appended, capacity, holds'⟩

theorem appendInteger_spec {lp : Memory} {elements : List (List UInt8)} (holds : IsListpack lp elements)
    (range : -2 ^ 63 ≤ v ∧ v < 2 ^ 63) (small : usedBytes (elements ++ [signedDecimal v]) < 2 ^ 32) :
    ∃ lp', nonNull (lpAppendInteger lp v) = .ok lp' ∧ IsListpack lp' (elements ++ [signedDecimal v]) := by
  obtain ⟨capacity, holds⟩ := holds
  obtain ⟨lp', appended, holds'⟩ := (holds.appendInteger range.1 range.2).exists_listpack small
  exact ⟨lp', nonNull_of appended, capacity, holds'⟩

end Redis.Listpack

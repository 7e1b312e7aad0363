import Redis.Foundation.BitReversal
import Redis.Foundation.Bitwise
import Redis.Proof.Dict.Refinement

namespace Redis.Dictionary
open Foundation List
variable {K V : Type} {type : DictType K} {d : Dict K V}
variable {exp small large : Nat} {ht : HashTable K V}

theorem foldl_revStep_linear (shifts : List Nat) (mask : Word) :
    OrLinear fun word => (shifts.foldl revStep (mask, word)).2 := by
  induction shifts generalizing mask with
  | nil => exact .id
  | cons s shifts ih =>
    apply (ih (mask ^^^ (mask <<< s))).comp
    dsimp only
    exact ((OrLinear.id.ushiftRight s).and _).sup ((OrLinear.id.shiftLeft s).and _)

theorem rev_eq_reverse (word : Word) : rev word = word.reverse := by
  apply BitVec.eq_of_getLsbD_eq
  intro index within
  rw [BitVec.getLsbD_reverse, BitVec.getMsbD_eq_getLsbD]
  apply (foldl_revStep_linear _ _).getLsbD
  revert index
  decide +kernel

theorem getLsbD_dicthtSizeMask (fits : exp ≤ 63) (index : Nat) :
    (dicthtSizeMask (exp : Int)).getLsbD index = decide (index < exp) := by
  rw [dicthtSizeMask, if_neg (by omega), dicthtSize_natCast, BitVec.getLsbD_ofNat, Nat.testBit_two_pow_sub_one]
  by_cases below : index < exp
  · simp [show index < 64 by omega]
  · simp [below]

theorem reversed_advanceCursor (fits : exp ≤ 63) (v : Word) :
    reversed (advanceCursor (dicthtSizeMask (exp : Int)) v) =
      (reversed v / 2 ^ (64 - exp) + 1) * 2 ^ (64 - exp) % 2 ^ 64 := by
  have positive := Nat.two_pow_pos (64 - exp)
  have high := reversed_or_high (show exp ≤ 64 by omega) v (~~~ dicthtSizeMask (exp : Int)) (by
    intro index within
    rw [BitVec.getLsbD_not, getLsbD_dicthtSizeMask fits]
    by_cases below : index < exp
    · simp [below]
    · simp [within, show exp ≤ index by omega])
  rw [advanceCursor, rev_eq_reverse, reversed_reverse, rev_eq_reverse]
  change (reversed (v ||| ~~~ dicthtSizeMask (exp : Int)) + 1) % 2 ^ 64 = _
  rw [add_mul]
  omega

/-- The cursor selects the chain of all entries in its interval. -/
theorem HashTable.WellFormed.cursor_bucket (valid : ht.WellFormed type) (sized : ht.sizeExp = exp) (v : Word) :
    ∃ chain, ht.table[(v &&& dicthtSizeMask (exp : Int)).toNat]? = some chain ∧ ∀ entry ∈ ht.table.flatten,
        reversed (type.hashFunction entry.1) / 2 ^ (64 - exp) = reversed v / 2 ^ (64 - exp) → entry ∈ chain := by
  obtain ⟨exp', fits, same, length⟩ := valid.exists_exp (by omega)
  obtain rfl : exp' = exp := by omega
  have inside : v.toNat % 2 ^ exp' < ht.table.length := by
    rw [length]
    exact Nat.mod_lt _ (Nat.two_pow_pos exp')
  rw [and_dicthtSizeMask v (by omega)]
  refine ⟨_, getElem?_eq_getElem inside, ?_⟩
  intro entry member interval
  have bucket := (reversed_div_eq_iff (show exp' ≤ 64 by omega) _ _).mp interval
  obtain ⟨chain, read, found⟩ := valid.mem_bucket member
  rw [bucketIndex, sized, and_dicthtSizeMask _ (by omega), bucket, getElem?_eq_getElem inside] at read
  exact Option.some.inj read ▸ found

/-- The loop ends when the cursor reaches an interval of the smaller table. -/
theorem and_masks_eq_zero_iff (smaller : small < large) (fits : large ≤ 63)
    {v : Word} (start : 2 ^ (64 - large) ∣ reversed v) :
    v &&& (dicthtSizeMask (small : Int) ^^^ dicthtSizeMask (large : Int)) = 0 ↔ 2 ^ (64 - small) ∣ reversed v := by
  rw [dvd_reversed_iff (show large ≤ 64 by omega) start]
  have between : ∀ index, (dicthtSizeMask (small : Int) ^^^ dicthtSizeMask (large : Int)).getLsbD index =
      decide (small ≤ index ∧ index < large) := by
    intro index
    rw [BitVec.getLsbD_xor, getLsbD_dicthtSizeMask (by omega), getLsbD_dicthtSizeMask fits]
    by_cases below : index < small
    · simp [below, show index < large by omega]
    · simp [below, show small ≤ index by omega]
  constructor
  · intro zero index lower upper
    have bit := congrArg (fun word => BitVec.getLsbD word index) zero
    simpa [between, lower, upper] using bit
  · intro clear
    apply BitVec.eq_of_getLsbD_eq
    intro index _
    rw [BitVec.getLsbD_and, between]
    by_cases inside : small ≤ index ∧ index < large
    · simp [clear index inside.1 inside.2]
    · simp [inside]

/-- The rest of the interval of a cursor is passed to the callback, and the cursor moves to the next interval. -/
structure Sweeps (type : DictType K) (exp : Nat) (v : Word) (entries emitted : List (K × V)) (v' : Word) : Prop where
  final : reversed v' = (reversed v / 2 ^ (64 - exp) + 1) * 2 ^ (64 - exp) % 2 ^ 64
  covers : ∀ entry ∈ entries, reversed (type.hashFunction entry.1) / 2 ^ (64 - exp) = reversed v / 2 ^ (64 - exp) →
    reversed v ≤ reversed (type.hashFunction entry.1) → entry ∈ emitted

/-- The expansions of a cursor cover the rest of its interval in the larger table. -/
theorem scanExpansions_spec (valid : ht.WellFormed type)
    (smaller : small < large) (sized : ht.sizeExp = large) (fuel : Nat) (v : Word)
    (enough : 2 ^ (large - small) - reversed v / 2 ^ (64 - large) % 2 ^ (large - small) ≤ fuel) :
    ∃ emitted v', scanExpansions ht.table (dicthtSizeMask (small : Int)) (dicthtSizeMask (large : Int))
        fuel v = .ok (emitted, v') ∧ Sweeps type small v ht.table.flatten emitted v' := by
  obtain ⟨_, fits, same, _⟩ := valid.exists_exp (by omega)
  have fits : large ≤ 63 := by omega
  have split : 2 ^ (64 - small) = 2 ^ (64 - large) * 2 ^ (large - small) := by
    rw [← pow_add]
    congr 1
    omega
  have whole : 2 ^ 64 = 2 ^ (64 - large) * 2 ^ large := by
    rw [← pow_add]
    congr 1
    omega
  have even : 2 ^ (large - small) ∣ 2 ^ large := pow_dvd_pow 2 (by omega)
  have width_pos := Nat.two_pow_pos (64 - large)
  have ratio_pos := Nat.two_pow_pos (large - small)
  induction fuel generalizing v with
  | zero =>
    omega
  | succ fuel ih =>
    obtain ⟨chain, read, covers⟩ := valid.cursor_bucket sized v
    have next := reversed_advanceCursor fits v
    have start : 2 ^ (64 - large) ∣ reversed (advanceCursor (dicthtSizeMask (large : Int)) v) := by
      rw [next, Nat.dvd_mod_iff (whole ▸ Nat.dvd_mul_right _ _)]
      exact Nat.dvd_mul_left _ _
    have stops := and_masks_eq_zero_iff smaller fits start
    rw [next, Nat.dvd_mod_iff (pow_dvd_pow 2 (by omega)), split, mul_comm (2 ^ (64 - large)),
      mul_dvd_mul_iff_right width_pos.ne'] at stops
    simp only [scanExpansions, readCell_of read, stops]
    split
    · rename_i last
      refine ⟨chain, _, rfl, ?_, ?_⟩
      · rw [next, sweep_leaves last, split, Nat.div_div_eq_div_mul]
      · intro entry member interval later
        apply covers entry member
        have lower := Nat.div_le_div_right (c := 2 ^ (64 - large)) later
        rw [split, ← Nat.div_div_eq_div_mul, ← Nat.div_div_eq_div_mul] at interval
        exact eq_of_last_part last interval lower
    · rename_i inner
      have stays := sweep_stays (whole ▸ reversed_lt v) even inner
      rw [← whole] at stays
      rw [Nat.mod_eq_of_lt stays] at next
      have place : reversed (advanceCursor (dicthtSizeMask (large : Int)) v) / 2 ^ (64 - large) =
          reversed v / 2 ^ (64 - large) + 1 := by
        rw [next, Nat.mul_div_cancel _ width_pos]
      have interval : reversed (advanceCursor (dicthtSizeMask (large : Int)) v) / 2 ^ (64 - small) =
          reversed v / 2 ^ (64 - small) := by
        rw [split, ← Nat.div_div_eq_div_mul, ← Nat.div_div_eq_div_mul, place, Nat.succ_div_of_not_dvd inner]
      obtain ⟨emitted, v', looped, final, rest⟩ := ih (advanceCursor (dicthtSizeMask (large : Int)) v) (by
        rw [place, succ_mod_of_not_dvd ratio_pos inner]
        omega)
      simp only [looped]
      refine ⟨chain ++ emitted, v', rfl, by rw [final, interval], ?_⟩
      intro entry member same later
      by_cases here : reversed (type.hashFunction entry.1) / 2 ^ (64 - large) = reversed v / 2 ^ (64 - large)
      · exact mem_append_left _ (covers entry member here)
      · apply mem_append_right
        apply rest entry member (same.trans interval.symm)
        have lower := Nat.div_le_div_right (c := 2 ^ (64 - large)) later
        rw [next]
        exact Nat.mul_le_of_le_div _ _ _ (by omega)

/-- A scan finishes, covers the rest of the interval of its cursor in the smaller table,
and moves the cursor to the next interval. -/
theorem dictScan_spec (invariant : d.Invariant type) (inhabited : dictSize d ≠ 0) (v : Word) :
    ∃ emitted v', ∃ exp ≤ 60, dictScan d v = .ok (emitted, v') ∧ Sweeps type exp v d.entries emitted v' := by
  obtain ⟨exp0, fits0, sized0, _⟩ := invariant.table0.exists_exp (invariant.present_of_size inhabited)
  by_cases rehashing : dictIsRehashing d
  · have active := invariant.active rehashing
    obtain ⟨exp1, fits1, sized1, _⟩ := invariant.table1.exists_exp active.present1
    have other : exp0 ≠ exp1 := fun same => active.resized (by rw [sized0, sized1, same])
    have swaps : dicthtSize d.ht0.sizeExp > dicthtSize d.ht1.sizeExp ↔ exp1 < exp0 := by
      rw [sized0, sized1]
      exact Nat.pow_lt_pow_iff_right (by decide)
    -- The smaller table gives the interval, the larger one its expansions.
    have both : ∀ (small large : HashTable K V) (e0 e1 : Nat), small.WellFormed type →
        large.WellFormed type → small.sizeExp = e0 → large.sizeExp = e1 → e0 < e1 →
        (∀ entry ∈ d.entries, entry ∈ small.table.flatten ∨ entry ∈ large.table.flatten) →
        ∃ chain rest v', readCell small.table (v &&& dicthtSizeMask small.sizeExp).toNat = .ok chain ∧
          scanExpansions large.table (dicthtSizeMask small.sizeExp) (dicthtSizeMask large.sizeExp)
            (dicthtSize large.sizeExp) v = .ok (rest, v') ∧ Sweeps type e0 v d.entries (chain ++ rest) v' := by
      intro small large e0 e1 valid0 valid1 same0 same1 smaller entries
      obtain ⟨chain, read, covers⟩ := valid0.cursor_bucket same0 v
      have enough : 2 ^ (e1 - e0) - reversed v / 2 ^ (64 - e1) % 2 ^ (e1 - e0) ≤ 2 ^ e1 :=
        (Nat.sub_le _ _).trans (Nat.pow_le_pow_right (by decide) (Nat.sub_le _ _))
      obtain ⟨rest, v', looped, final, covers'⟩ := scanExpansions_spec valid1 smaller same1 (2 ^ e1) v enough
      rw [same0, same1]
      refine ⟨chain, rest, v', readCell_of read, looped, final, ?_⟩
      intro entry member interval later
      rcases entries entry member with inside | inside
      · exact mem_append_left _ (covers entry inside interval)
      · exact mem_append_right _ (covers' entry inside interval later)
    unfold dictScan
    rw [if_neg inhabited, if_neg (not_not_intro rehashing)]
    dsimp only
    by_cases swapped : exp1 < exp0
    · obtain ⟨chain, rest, v', read, looped, sweeps⟩ := both d.ht1 d.ht0 exp1 exp0
        invariant.table1 invariant.table0 sized1 sized0 swapped
        fun entry member => (mem_append.mp member).symm
      rw [if_pos (swaps.mpr swapped), if_pos (swaps.mpr swapped), read, looped]
      exact ⟨chain ++ rest, v', exp1, fits1, rfl, sweeps⟩
    · obtain ⟨chain, rest, v', read, looped, sweeps⟩ := both d.ht0 d.ht1 exp0 exp1
        invariant.table0 invariant.table1 sized0 sized1 (by omega)
        fun entry member => mem_append.mp member
      rw [if_neg (swaps.not.mpr swapped), if_neg (swaps.not.mpr swapped), read, looped]
      exact ⟨chain ++ rest, v', exp0, fits0, rfl, sweeps⟩
  · obtain ⟨chain, read, covers⟩ := invariant.table0.cursor_bucket sized0 v
    unfold dictScan
    rw [if_neg inhabited, if_pos rehashing]
    simp only [sized0, readCell_of read]
    refine ⟨chain, _, exp0, fits0, rfl, reversed_advanceCursor (by omega) v, ?_⟩
    rw [invariant.entries_idle rehashing]
    exact fun entry member interval _ => covers entry member interval

/-- A scan passes every entry between its two cursors to the callback. The cursor zero that
ends an iteration stands for the end of the order. -/
theorem dictScan_covers (invariant : d.Invariant type) (v : Word) : ∃ emitted v', dictScan d v = .ok (emitted, v') ∧
      ∀ entry ∈ d.entries, reversed v ≤ reversed (type.hashFunction entry.1) →
        (v' = 0 ∨ reversed (type.hashFunction entry.1) < reversed v') → entry ∈ emitted := by
  by_cases none : dictSize d = 0
  · refine ⟨[], 0, by rw [dictScan, if_pos none], ?_⟩
    rw [invariant.dictSize_eq, length_eq_zero_iff] at none
    simp [none]
  · obtain ⟨emitted, v', exp, fits, scanned, final, covers⟩ := dictScan_spec invariant none v
    refine ⟨emitted, v', scanned, ?_⟩
    intro entry member lower upper
    have positive := Nat.two_pow_pos (64 - exp)
    have last : reversed (type.hashFunction entry.1) < (reversed v / 2 ^ (64 - exp) + 1) * 2 ^ (64 - exp) := by
      rcases upper with rfl | upper
      · rw [reversed_zero] at final
        have size := Nat.le_of_dvd (by positivity) (Nat.dvd_of_mod_eq_zero final.symm)
        exact (reversed_lt _).trans_le size
      · rw [final] at upper
        exact upper.trans_le (Nat.mod_le _ _)
    refine covers entry member (le_antisymm ?_ (Nat.div_le_div_right lower)) lower
    exact Nat.le_of_lt_succ ((Nat.div_lt_iff_lt_mul positive).mpr last)

/-- The rest of an iteration reaches every key from its cursor on that stays in the
dictionary. The induction passes a key that is behind the new cursor to the current scan
and a key that is ahead of it to the remaining scans, whatever the gap does to the tables. -/
theorem scanRun_covers [DecidableEq K] (gaps : List (List (DictOp K V))) (state : DictState K V)
    (v : Word) {map : Finmap fun _ : K => V} (models : state.dict.Models type map) :
    Outcome (scanRun type gaps state v) (· = .outOfMemory) fun trace =>
      trace.cursor = 0 → ∀ key, (∀ d ∈ trace.visited, key ∈ d.entries.map Prod.fst) →
        reversed v ≤ reversed (type.hashFunction key) → key ∈ trace.emitted.map Prod.fst := by
  induction gaps generalizing state v map with
  | nil =>
    obtain ⟨emitted, v', scanned, covers⟩ := dictScan_covers models.invariant v
    simp only [scanRun, scanned]
    intro ended key persists later
    obtain ⟨entry, member, rfl⟩ := mem_map.mp (persists _ (mem_singleton.mpr rfl))
    exact mem_map_of_mem (covers entry member later (.inl ended))
  | cons gap gaps ih =>
    obtain ⟨emitted, v', scanned, covers⟩ := dictScan_covers models.invariant v
    simp only [scanRun, scanned, ok_bind]
    split
    · rename_i ended
      intro _ key persists later
      obtain ⟨entry, member, rfl⟩ := mem_map.mp (persists _ (mem_singleton.mpr rfl))
      exact mem_map_of_mem (covers entry member later (.inl ended))
    · refine (run_simulates dictStep_models gap state map models).bind fun next ⟨models', _⟩ => ?_
      refine (ih next.1 v' models').bind fun rest result => ?_
      intro ended key persists later
      rw [map_append, mem_append]
      by_cases ahead : reversed v' ≤ reversed (type.hashFunction key)
      · exact .inr (result ended key (forall_mem_cons.mp persists).2 ahead)
      · obtain ⟨entry, member, rfl⟩ := mem_map.mp (persists _ mem_cons_self)
        exact .inl (mem_map_of_mem (covers entry member later (.inr (by omega))))

/-- An iteration from cursor zero to cursor zero passes every key that is in the dictionary
at each of its calls to the callback. -/
theorem dictScan_visits_persistent_keys [DecidableEq K] (type : DictType K) (state : DictState K V)
    (invariant : state.dict.Invariant type) (fits : state.dict.Fits)
    (gaps : List (List (DictOp K V))) :
    Outcome (scanRun type gaps state 0) (· = .outOfMemory) fun trace =>
      trace.cursor = 0 → ∀ key, (∀ d ∈ trace.visited, key ∈ d.entries.map Prod.fst) →
        key ∈ trace.emitted.map Prod.fst := by
  obtain ⟨map, represents⟩ := exists_represents state.dict.entries invariant.distinct
  refine (scanRun_covers gaps state 0 ⟨invariant, fits, represents⟩).mono ?_
  intro trace covers ended key persists
  exact covers ended key persists (by rw [reversed_zero]; exact Nat.zero_le _)

theorem readCell_subset (table : List (List (K × V))) (bucket : Nat) :
    Outcome (readCell table bucket) (fun _ => True) (· ⊆ table.flatten) := by
  unfold readCell
  split
  next found => exact (sublist_flatten_of_mem (mem_of_getElem? found)).subset
  next => trivial

theorem scanExpansions_subset (table : List (List (K × V))) (m0 m1 : Word) (fuel : Nat) (v : Word) :
    Outcome (scanExpansions table m0 m1 fuel v) (fun _ => True) (·.1 ⊆ table.flatten) := by
  induction fuel generalizing v with
  | zero => trivial
  | succ fuel ih =>
    apply (readCell_subset table _).bind
    intro chain read
    dsimp only
    split_ifs
    · exact read
    · exact (ih _).bind fun rest later => append_subset.mpr ⟨read, later⟩

theorem dictScan_subset (d : Dict K V) (v : Word) :
    Outcome (dictScan d v) (fun _ => True) (·.1 ⊆ d.entries) := by
  unfold dictScan
  split_ifs
  · exact nil_subset _
  · apply (readCell_subset _ _).bind
    intro chain small
    apply (scanExpansions_subset _ _ _ _ _).bind
    intro rest large
    have both (entry : K × V) (member : entry ∈ chain ++ rest.1) : entry ∈ d.entries := by
      simp only [Dict.entries, mem_append] at member ⊢
      have := @small entry
      have := @large entry
      split_ifs at * <;> tauto
    exact both
  · exact (readCell_subset _ _).bind fun chain read => subset_append_of_subset_left _ read

theorem scanRun_subset [DecidableEq K] (gaps : List (List (DictOp K V))) (state : DictState K V) (v : Word) :
    Outcome (scanRun type gaps state v) (fun _ => True) fun trace =>
      trace.emitted ⊆ trace.visited.flatMap Dict.entries := by
  induction gaps generalizing state v with
  | nil => exact (dictScan_subset _ _).bind fun scanned inside => by simpa using inside
  | cons gap gaps ih =>
    apply (dictScan_subset _ _).bind
    intro scanned inside
    dsimp only
    split_ifs
    · simpa using inside
    · apply Outcome.bind (outcome_any _)
      intro next _
      exact (ih _ _).bind fun rest later => append_subset.mpr
        ⟨subset_append_of_subset_left _ inside, subset_append_of_subset_right _ later⟩

/-- Natural numbers are their own hashes. -/
def sampleType : DictType Nat := ⟨BitVec.ofNat 64, none⟩

/-- Five insertions leave a dictionary that grows from four to eight buckets. -/
def sampleState : DictState Nat Bool where
  dict := {
    ht0 := ⟨[[(0, true)], [(1, true)], [(2, true)], [(3, true)]], 4, 2⟩
    ht1 := ⟨[[], [], [], [], [(4, true)], [], [], []], 1, 3⟩
    rehashidx := 0
    pauserehash := 0 }
  mode := .enable

theorem sampleState_models : ∃ map, sampleState.dict.Models sampleType map := by
  have reached : run (dictStep sampleType) ⟨dictCreate, .enable⟩
      ((List.range 5).map fun key => DictOp.add key true) =
        .ok (sampleState, List.replicate 5 (.status true)) := by rfl
  exact ⟨_, ((run_simulates dictStep_models _ _ ∅ (Dict.models_dictCreate sampleType)).of_ok reached).1⟩

/-- The iteration sees key 3 while the table grows, loses keys, and shrinks. -/
theorem dictScan_visits_persistent_keys_sample :
    ∃ trace, scanRun sampleType [[.rehash 2, .delete 0], [.rehash 10, .delete 1, .resize, .find 3],
        [.rehash 1], [], [], [], [], []] sampleState 0 = .ok trace ∧
      trace.cursor = 0 ∧ (∀ d ∈ trace.visited, 3 ∈ d.entries.map Prod.fst) ∧
      3 ∈ trace.emitted.map Prod.fst := by
  obtain ⟨map, models⟩ := sampleState_models
  have outcome := dictScan_visits_persistent_keys sampleType sampleState models.invariant models.fits
    [[.rehash 2, .delete 0], [.rehash 10, .delete 1, .resize, .find 3], [.rehash 1], [], [], [], [], []]
  have ends : Outcome (scanRun sampleType [[.rehash 2, .delete 0],
      [.rehash 10, .delete 1, .resize, .find 3], [.rehash 1], [], [], [], [], []] sampleState 0)
      (fun _ => False)
      fun trace => trace.cursor = 0 ∧ ∀ d ∈ trace.visited, 3 ∈ d.entries.map Prod.fst := by
    decide +kernel
  obtain ⟨trace, finished, ended, persists⟩ := ends.exists_ok
  exact ⟨trace, finished, ended, persists, outcome.of_ok finished ended 3 persists⟩

end Redis.Dictionary

import Redis.Proof.Dict.Scan

namespace Redis.Dictionary
open Foundation List
variable {K V : Type} {type : DictType K} {d : Dict K V}

theorem skipEmptyBuckets_advances (table : List (List (K × V))) (index : Nat) (visits : BitVec 32) :
    Outcome (skipEmptyBuckets table index visits) (fun _ => True) fun result =>
      index ≤ result.1 ∧ (result.2.2 = true → index < result.1) := by
  fun_induction skipEmptyBuckets table index visits with
  | case1 => trivial
  | case2 => exact ⟨Nat.le_succ _, fun _ => Nat.lt_succ_self _⟩
  | case3 _ index _ _ ih => exact ih.mono fun _ ahead => ⟨by omega, fun _ => by omega⟩
  | case4 => exact ⟨le_rfl, nofun⟩

theorem moveChain_table (index : Nat) (chain : List (K × V)) (d : Dict K V) :
    Outcome (moveChain type index chain d) (fun _ => True) (·.ht0.table = d.ht0.table) := by
  induction chain generalizing d with
  | nil => rfl
  | cons entry chain ih => exact Outcome.bind (outcome_any _) fun ht1 _ => ih _

/-- A loop that leaves entries in table 0 has passed one of its buckets. -/
theorem rehashLoop_advances (n : Nat) (d : Dict K V) (visits : BitVec 32) (started : 0 ≤ d.rehashidx) :
    Outcome (rehashLoop type n d visits) (fun _ => True) fun result =>
      result.1.ht0.table.length = d.ht0.table.length ∧ d.rehashidx ≤ result.1.rehashidx ∧
        (n ≠ 0 → result.2 = true ∨ result.1.ht0.used ≠ 0 → d.rehashidx < result.1.rehashidx) := by
  induction n generalizing d visits with
  | zero => exact ⟨rfl, le_rfl, fun none => absurd rfl none⟩
  | succ n ih =>
    unfold rehashLoop
    split_ifs with empty
    · exact ⟨rfl, le_rfl, by simp [empty]⟩
    apply Outcome.bind (outcome_any _)
    intro _ _
    apply (skipEmptyBuckets_advances _ _ _).bind
    intro skipped ahead
    obtain ⟨index, visits, stopped⟩ := skipped
    obtain ⟨passed, further⟩ := ahead
    dsimp only at passed further ⊢
    split_ifs with limit
    · have := further limit
      exact ⟨rfl, by dsimp only; omega, fun _ _ => by dsimp only; omega⟩
    apply Outcome.bind (outcome_any _)
    intro chain _
    apply (moveChain_table index chain d).bind
    intro moved same
    apply (ih _ visits (by dsimp only; omega)).mono
    intro result later
    obtain ⟨length, ahead, _⟩ := later
    dsimp only at length ahead
    exact ⟨by rw [length, length_set, same], by omega, fun _ _ => by omega⟩

theorem dictRehash_advances (n : Nat) (invariant : d.Invariant type) :
    Outcome (dictRehash type .enable d (n + 1)) (fun _ => True) fun result =>
      if result.2 then result.1.ht0.table.length = d.ht0.table.length ∧ d.rehashidx < result.1.rehashidx
      else ¬ dictIsRehashing result.1 := by
  by_cases rehashing : dictIsRehashing d
  · rw [dictRehash, if_neg (by simp [rehashing]), if_neg (by simp)]
    apply (rehashLoop_advances (n + 1) d _ (invariant.active rehashing).lower).bind
    rintro ⟨next, early⟩ ⟨length, _, ahead⟩
    dsimp only at length ahead ⊢
    cases early with
    | true => exact ⟨length, ahead (Nat.succ_ne_zero n) (.inl rfl)⟩
    | false =>
      unfold rehashFinish
      simp only [Bool.false_eq_true, if_false]
      split_ifs with empty
      · simp [dictIsRehashing]
      · exact ⟨length, ahead (Nat.succ_ne_zero n) (.inr empty)⟩
  · rw [dictRehash, if_pos (.inr rehashing)]
    exact rehashing

theorem rehashRounds_finishes (rounds : Nat) (invariant : d.Invariant type)
    (enough : d.ht0.table.length < rounds + d.rehashidx) :
    Outcome (rehashRounds type .enable rounds d) (fun _ => False) fun result =>
      d.Kept type result.1 ∧ ¬ dictIsRehashing result.1 := by
  induction rounds generalizing d with
  | zero =>
    refine ⟨.refl invariant, fun rehashing => ?_⟩
    have := (invariant.active rehashing).upper
    omega
  | succ rounds ih =>
    obtain ⟨next, more, rehashed, kept⟩ := dictRehash_spec .enable 100 invariant
    have ahead := (dictRehash_advances 99 invariant).of_ok rehashed
    unfold rehashRounds
    simp only [rehashed, ok_bind]
    cases more with
    | false => exact ⟨kept, ahead⟩
    | true =>
      obtain ⟨length, further⟩ : next.ht0.table.length = d.ht0.table.length ∧ d.rehashidx < next.rehashidx := ahead
      apply (ih kept.1 (by push_cast at enough; omega)).bind
      intro result after
      exact ⟨kept.trans after.1, after.2⟩

end Redis.Dictionary

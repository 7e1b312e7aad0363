import Redis.Construction.Aof.Files
import Redis.Proof.Aof.ManifestRun

namespace Redis.Aof
open Foundation List

section Names
variable {filename : AofFilename} {base base' : Bool} {name : Aof.Sds} {first second : Int}

/-- The name of a base file or of an incremental file, with its number. -/
inductive Numbered (filename : AofFilename) : Bool → Aof.Sds → Int → Prop
  | base (aofUseRdbPreamble : Bool) (seq : Int) :
      Numbered filename true (baseFileName filename aofUseRdbPreamble seq) seq
  | incr (seq : Int) : Numbered filename false (incrFileName filename seq) seq

theorem Numbered.layout (numbered : Numbered filename base name first) : ∃ ending,
    name = filename.name ++ (ascii "." ++ (signedDecimal first ++ 46 :: (if base then 98 else 105) :: ending)) := by
  cases numbered with
  | base aofUseRdbPreamble =>
    refine ⟨ascii "ase" ++ if aofUseRdbPreamble then ascii ".rdb" else ascii ".aof", ?_⟩
    rw [baseFileName, append_assoc, append_assoc]
    rfl
  | incr =>
    refine ⟨ascii "ncr" ++ ascii ".aof", ?_⟩
    rw [incrFileName, append_assoc, append_assoc]
    rfl

theorem Numbered.unique (one : Numbered filename base name first) (two : Numbered filename base' name second)
    (positive : 0 ≤ first) (positive' : 0 ≤ second) : base = base' ∧ first = second := by
  obtain ⟨ending, rfl⟩ := one.layout
  obtain ⟨ending', same⟩ := two.layout
  rw [append_cancel_left_eq, append_cancel_left_eq, signedDecimal, signedDecimal, if_neg (not_lt.mpr positive),
    if_neg (not_lt.mpr positive')] at same
  have noDigit : ¬IsDigit 46 := by
    rw [IsDigit]
    decide
  obtain ⟨numbers, endings⟩ := decimal_append_inj noDigit noDigit same
  have kinds := (List.cons.inj (List.cons.inj endings).2).1
  refine ⟨?_, by omega⟩
  revert kinds
  cases base <;> cases base' <;> decide

theorem baseFileName_ne_incrFileName (positive : 0 ≤ first) (aofUseRdbPreamble : Bool) :
    baseFileName filename aofUseRdbPreamble first ≠ incrFileName filename first := by
  intro same
  have two : Numbered filename false (baseFileName filename aofUseRdbPreamble first) first := same ▸ .incr first
  cases ((Numbered.base aofUseRdbPreamble first).unique two positive positive).1
end Names

section Endings
variable (filename : AofFilename) (seq : Int)

theorem getLast_baseFileName (aofUseRdbPreamble : Bool) :
    (baseFileName filename aofUseRdbPreamble seq).getLast? = some (if aofUseRdbPreamble then 98 else 102) := by
  rw [baseFileName, getLast?_append, getLast?_append]
  cases aofUseRdbPreamble <;> rfl

theorem getLast_incrFileName : (incrFileName filename seq).getLast? = some 102 := by
  rw [incrFileName, getLast?_append, getLast?_append]
  rfl

theorem getLast_getTempIncrAofName : (getTempIncrAofName filename).getLast? = some 114 := by
  rw [getTempIncrAofName, getLast?_append]
  rfl
end Endings

section Arranged
variable {filename : AofFilename} {am : AofManifest}

/-- An entry of a file that was replaced by the ones that are used now. -/
inductive Replaced (filename : AofFilename) (am : AofManifest) (ai : AofInfo) : Prop where
  | base (aofUseRdbPreamble : Bool) (named : ai.fileName = baseFileName filename aofUseRdbPreamble ai.fileSeq)
      (before : ai.fileSeq < am.currBaseFileSeq)
  | incr (named : ai.fileName = incrFileName filename ai.fileSeq)
      (before : ∀ other ∈ am.incrAofList, ai.fileSeq < other.fileSeq)

/-- The entries of a manifest have the names of their numbers, and the history is older than the rest. -/
structure Arranged (filename : AofFilename) (am : AofManifest) : Prop where
  kept : Kept filename am
  base : ∀ ai ∈ am.baseAofInfo, ∃ aofUseRdbPreamble, ai.fileName = baseFileName filename aofUseRdbPreamble ai.fileSeq
  incr : ∀ ai ∈ am.incrAofList, ai.fileName = incrFileName filename ai.fileSeq
  history : ∀ ai ∈ am.historyAofList, Replaced filename am ai
  based : am.baseAofInfo = none → am.historyAofList = []

/-- The counter has passed the incremental files of the history. -/
def Counted (filename : AofFilename) (am : AofManifest) : Prop :=
  ∀ ai ∈ am.historyAofList, ai.fileName = incrFileName filename ai.fileSeq → ai.fileSeq ≤ am.currIncrFileSeq

theorem mem_liveNames {name : Aof.Sds} :
    name ∈ liveNames am ↔ (∃ ai ∈ am.baseAofInfo, ai.fileName = name) ∨ ∃ ai ∈ am.incrAofList, ai.fileName = name := by
  simp [liveNames]

theorem mem_listedNames {name : Aof.Sds} :
    name ∈ listedNames am ↔ name ∈ liveNames am ∨ ∃ ai ∈ am.historyAofList, ai.fileName = name := by
  simp [listedNames]

theorem Replaced.numbered {ai : AofInfo} (replaced : Replaced filename am ai) :
    ∃ base, Numbered filename base ai.fileName ai.fileSeq ∧ if base then ai.fileSeq < am.currBaseFileSeq
      else ai.fileName = incrFileName filename ai.fileSeq ∧ ∀ other ∈ am.incrAofList, ai.fileSeq < other.fileSeq := by
  cases replaced with
  | base aofUseRdbPreamble named before => exact ⟨true, named ▸ .base aofUseRdbPreamble _, before⟩
  | incr named before => exact ⟨false, named ▸ .incr _, named, before⟩

variable (arranged : Arranged filename am) {name : Aof.Sds}
include arranged
theorem Arranged.live (member : name ∈ liveNames am) : ∃ base seq, Numbered filename base name seq ∧ 0 ≤ seq ∧
    if base then seq = am.currBaseFileSeq else ∃ ai ∈ am.incrAofList, ai.fileSeq = seq := by
  rcases mem_liveNames.mp member with ⟨ai, inside, rfl⟩ | ⟨ai, inside, rfl⟩
  · obtain ⟨aofUseRdbPreamble, named⟩ := arranged.base ai inside
    obtain ⟨made, current⟩ := arranged.kept.base ai inside
    exact ⟨true, ai.fileSeq, named ▸ .base aofUseRdbPreamble _, made.positive.le, current⟩
  · have named := arranged.incr ai inside
    exact ⟨false, ai.fileSeq, named ▸ .incr _, (arranged.kept.incr ai inside).1.positive.le, ai, inside, rfl⟩

theorem Arranged.listed (member : name ∈ listedNames am) : ∃ base seq, Numbered filename base name seq ∧ 0 ≤ seq ∧
    if base then seq ≤ am.currBaseFileSeq else Counted filename am → seq ≤ am.currIncrFileSeq := by
  rcases mem_listedNames.mp member with live | ⟨ai, inside, rfl⟩
  · obtain ⟨base, seq, used, positive, current⟩ := arranged.live live
    refine ⟨base, seq, used, positive, ?_⟩
    cases base with
    | true => exact le_of_eq current
    | false =>
      obtain ⟨ai, inside, rfl⟩ := current
      exact fun _ => (arranged.kept.incr ai inside).2
  · obtain ⟨base, old, before⟩ := (arranged.history ai inside).numbered
    refine ⟨base, ai.fileSeq, old, (arranged.kept.history ai inside).positive.le, ?_⟩
    cases base with
    | true => exact le_of_lt before
    | false => exact fun counted => counted ai inside before.1

theorem Arranged.temp_not_live : getTempIncrAofName filename ∉ liveNames am := by
  intro member
  obtain ⟨base, seq, used, -⟩ := arranged.live member
  have last := getLast_getTempIncrAofName filename
  generalize getTempIncrAofName filename = name at used last
  cases used with
  | base aofUseRdbPreamble =>
    rw [getLast_baseFileName] at last
    cases aofUseRdbPreamble <;> cases last
  | incr =>
    rw [getLast_incrFileName] at last
    cases last

theorem Arranged.history_not_live {ai : AofInfo} (member : ai ∈ am.historyAofList) : ai.fileName ∉ liveNames am := by
  intro live
  obtain ⟨base, seq, used, positive, current⟩ := arranged.live live
  obtain ⟨base', old, before⟩ := (arranged.history ai member).numbered
  obtain ⟨rfl, rfl⟩ := used.unique old positive (arranged.kept.history ai member).positive.le
  cases base with
  | true => exact before.ne current
  | false =>
    obtain ⟨other, inside, same⟩ := current
    exact (before.2 other inside).ne same.symm

theorem Arranged.base_fresh (aofUseRdbPreamble : Bool) :
    baseFileName filename aofUseRdbPreamble (am.currBaseFileSeq + 1) ∉ listedNames am := by
  intro member
  obtain ⟨base, seq, used, positive, below⟩ := arranged.listed member
  have counter := arranged.kept.counters.1
  obtain ⟨rfl, rfl⟩ := used.unique (.base aofUseRdbPreamble _) positive (by omega)
  rw [if_pos rfl] at below
  omega

/-- The next name of an incremental file stands nowhere, if the counter has passed the history. -/
theorem Arranged.incr_fresh (counted : Counted filename am) :
    incrFileName filename (am.currIncrFileSeq + 1) ∉ listedNames am := by
  intro member
  obtain ⟨base, seq, used, positive, below⟩ := arranged.listed member
  have counter := arranged.kept.counters.2
  obtain ⟨rfl, rfl⟩ := used.unique (.incr _) positive (by omega)
  rw [if_neg Bool.false_ne_true] at below
  have passed := below counted
  omega
end Arranged

section Preserved
variable {filename : AofFilename} {am : AofManifest}

theorem Replaced.mono {am' : AofManifest} {ai : AofInfo} (replaced : Replaced filename am ai)
    (later : am.currBaseFileSeq ≤ am'.currBaseFileSeq) (fewer : ∀ other ∈ am'.incrAofList, other ∈ am.incrAofList) :
    Replaced filename am' ai := by
  cases replaced with
  | base aofUseRdbPreamble named before => exact .base aofUseRdbPreamble named (before.trans_le later)
  | incr named before => exact .incr named fun other member => before other (fewer other member)

theorem Arranged.created : Arranged filename aofManifestCreate where
  kept := kept_create
  base := fun _ none => by cases none
  incr := forall_mem_nil _
  history := forall_mem_nil _
  based := fun _ => rfl

variable (arranged : Arranged filename am)
include arranged
theorem Arranged.written (dirty : Bool) : Arranged filename { am with dirty } where
  kept := { arranged.kept with }
  base := arranged.base
  incr := arranged.incr
  history ai member := (arranged.history ai member).mono le_rfl fun _ => id
  based := arranged.based

theorem Arranged.withoutHistory (dirty : Bool) : Arranged filename { am with historyAofList := [], dirty } where
  kept := { arranged.kept with history := forall_mem_nil _ }
  base := arranged.base
  incr := arranged.incr
  history := forall_mem_nil _
  based := fun _ => rfl

theorem Arranged.newBase (aofUseRdbPreamble : Bool) (kept : Kept filename (withNewBase filename aofUseRdbPreamble am)) :
    Arranged filename (withNewBase filename aofUseRdbPreamble am) where
  kept := kept
  base := by
    intro ai member
    cases member
    exact ⟨aofUseRdbPreamble, rfl⟩
  incr := arranged.incr
  history := by
    intro ai member
    have later : am.currBaseFileSeq < (withNewBase filename aofUseRdbPreamble am).currBaseFileSeq :=
      Int.lt_succ am.currBaseFileSeq
    rcases mem_append.mp member with new | old
    · obtain ⟨base, isBase, rfl⟩ := mem_map.mp new
      rw [Option.mem_toList] at isBase
      obtain ⟨preamble, named⟩ := arranged.base base isBase
      exact .base preamble named ((arranged.kept.base base isBase).2 ▸ later)
    · exact (arranged.history ai old).mono later.le fun _ => id
  based := fun none => by cases none

theorem Counted.newBase (counted : Counted filename am) (aofUseRdbPreamble : Bool) :
    Counted filename (withNewBase filename aofUseRdbPreamble am) := by
  intro ai member named
  rcases mem_append.mp member with new | old
  · obtain ⟨base, isBase, rfl⟩ := mem_map.mp new
    rw [Option.mem_toList] at isBase
    obtain ⟨preamble, named'⟩ := arranged.base base isBase
    have positive := (arranged.kept.base base isBase).1.positive.le
    exact absurd (named'.symm.trans named) (baseFileName_ne_incrFileName positive preamble)
  · exact counted ai old named

theorem Arranged.newIncr (counted : Counted filename am) (kept : Kept filename (withNewIncr filename am)) :
    Arranged filename (withNewIncr filename am) where
  kept := kept
  base := arranged.base
  incr := by
    intro ai member
    rcases mem_append.mp member with old | new
    · exact arranged.incr ai old
    · rw [mem_singleton.mp new]
  history := by
    intro ai member
    cases arranged.history ai member with
    | base preamble named before => exact .base preamble named before
    | incr named before =>
      apply Replaced.incr named
      intro other inside
      rcases mem_append.mp inside with old | new
      · exact before other old
      · rw [mem_singleton.mp new]
        exact Int.lt_add_one_of_le (counted ai member named)
  based := arranged.based

omit arranged

theorem Counted.newIncr (counted : Counted filename am) : Counted filename (withNewIncr filename am) :=
  fun ai member named => (counted ai member named).trans (Int.le_add_one le_rfl)

section Marked
variable {moved rest : List AofInfo} (split : am.incrAofList = moved ++ rest)

include split
theorem Arranged.marked (arranged : Arranged filename am) (based : am.baseAofInfo ≠ none) :
    Arranged filename (withMoved moved rest am) where
  kept := arranged.kept.moved split
  base := arranged.base
  incr ai member := arranged.incr ai (split ▸ mem_append_right _ member)
  history := by
    intro ai member
    rcases mem_append.mp member with new | old
    · obtain ⟨original, source, rfl⟩ := mem_map.mp new
      have named : (toHistory original).fileName = incrFileName filename (toHistory original).fileSeq :=
        arranged.incr original (split ▸ mem_append_left _ source)
      apply Replaced.incr named
      intro other inside
      have increasing := arranged.kept.increasing
      rw [split, map_append, pairwise_append] at increasing
      exact increasing.2.2 _ (mem_map_of_mem source) _ (mem_map_of_mem inside)
    · exact (arranged.history ai old).mono le_rfl fun other inside => split ▸ mem_append_right _ inside
  based := fun none => absurd none based

theorem Counted.marked (counted : Counted filename am) (kept : Kept filename am) :
    Counted filename (withMoved moved rest am) := by
  intro ai member named
  rcases mem_append.mp member with new | old
  · obtain ⟨original, source, rfl⟩ := mem_map.mp new
    exact (kept.incr original (split ▸ mem_append_left _ source)).2
  · exact counted ai old named
end Marked

theorem Arranged.reload (arranged : Arranged filename am) : Arranged filename (reloaded am) where
  kept := reloaded_kept arranged.kept
  base := arranged.base
  incr := arranged.incr
  history := by
    intro ai member
    cases arranged.history ai member with
    | base preamble named before =>
      apply Replaced.base preamble named
      have some : am.baseAofInfo ≠ none := fun none =>
        absurd member (by rw [reloaded, arranged.based none]; exact not_mem_nil)
      rw [reloaded]
      rwa [if_neg some]
    | incr named before => exact .incr named before
  based := arranged.based

/-- The loaded counter has passed the history if a file of the manifest shows it or there is nothing to pass. -/
theorem Arranged.counted_reload (arranged : Arranged filename am)
    (shown : am.incrAofList = [] → ∀ ai ∈ am.historyAofList, ai.fileName ≠ incrFileName filename ai.fileSeq) :
    Counted filename (reloaded am) := by
  intro ai member named
  by_cases empty : am.incrAofList = []
  · exact absurd named (shown empty ai member)
  · obtain ⟨other, final⟩ := Option.ne_none_iff_exists'.mp (mt getLast?_eq_none_iff.mp empty)
    have last := arranged.kept.last other final
    have inside := mem_of_getLast? final
    rw [reloaded]
    rw [if_neg empty, ← last]
    have positive := (arranged.kept.history ai member).positive.le
    cases arranged.history ai member with
    | base preamble named' before =>
      exact absurd (named'.symm.trans named) (baseFileName_ne_incrFileName positive preamble)
    | incr named' before => exact (before other inside).le
end Preserved
end Redis.Aof

import Redis.Construction.SetType
import Redis.Proof.Dict.Iterator
import Redis.Proof.Intset.Refinement
import Redis.Proof.Listpack.Search

namespace Redis.SetType
open Foundation Redis.Dictionary Redis.IntegerSet Redis.Listpack List
variable {setDictType : DictType Sds} {set : SetObject} {si : SetTypeIterator} {strings rest : List Sds} {s : Sds}

theorem entryText_of {entry : LpEntry} (stands : EntryOf s entry) : entryText entry = .ok s := by
  cases entry with
  | string text => exact congrArg Except.ok stands
  | integer value =>
    obtain ⟨rfl, lower, upper⟩ := stands
    exact ll2string_eq lower (by omega)

theorem inRange_of_holds {enc : Encoding} {value : Int} (holds : enc.Holds value) : -2 ^ 63 ≤ value ∧ value < 2 ^ 63 := by
  cases enc <;> simp only [Encoding.Holds, Encoding.size] at holds <;> omega

/-- The members of a set in the order of its iteration. -/
def Lists (setDictType : DictType Sds) (strings : List Sds) : SetObject → Prop
  | .intset is => ∃ values, IntegerSet.Stores is values ∧ strings = values.map signedDecimal
  | .listpack lp => IsListpack lp strings
  | .ht d => d.Invariant setDictType ∧ strings = d.entries.map Prod.fst

/-- The members that an iterator has not returned. -/
def Ahead (setDictType : DictType Sds) (rest : List Sds) : SetObject → SetTypeIterator → Prop
  | .intset is, .intset ii => ∃ values, IntegerSet.Stores is values ∧ rest = (values.drop ii).map signedDecimal
  | .listpack lp, .listpack lpi => ∃ front, IsListpack lp (front ++ rest) ∧
      ((front = [] ∧ lpi = none) ∨ ∃ init x, front = init ++ [x] ∧ lpi = some (entryOffset init))
  | .ht d, .ht di => d.Invariant setDictType ∧ -1 ≤ di.index ∧ rest = (entriesAhead d di).map Prod.fst
  | _, _ => False

theorem Lists.start (lists : Lists setDictType strings set) : Ahead setDictType strings set (setTypeInitIterator set) := by
  cases set with
  | intset is =>
    obtain ⟨values, stores, same⟩ := lists
    exact ⟨values, stores, by rw [drop_zero, same]⟩
  | listpack lp => exact ⟨[], lists, .inl ⟨rfl, rfl⟩⟩
  | ht d => exact ⟨lists.1, le_rfl, by rw [entriesAhead_dictGetIterator, lists.2]⟩

theorem setTypeNext_spec (ahead : Ahead setDictType rest set si) : (rest = [] ∧ setTypeNext set si = .ok none) ∨
      ∃ s rest' entry si', rest = s :: rest' ∧ setTypeNext set si = .ok (some (entry, si')) ∧ EntryOf s entry ∧
        Ahead setDictType rest' set si' := by
  cases set with
  | intset is =>
    cases si with
    | intset ii =>
      obtain ⟨values, stores, rfl⟩ := ahead
      dsimp only [setTypeNext]
      rw [stores.length]
      by_cases inside : ii < values.length
      · have cell := getElem?_eq_getElem inside
        obtain ⟨lower, upper⟩ := inRange_of_holds (stores.holds _ (mem_of_getElem? cell))
        refine .inr ⟨signedDecimal values[ii], (values.drop (ii + 1)).map signedDecimal, .integer values[ii],
          .intset (ii + 1), ?_, ?_, ⟨rfl, lower, upper⟩, values, stores, rfl⟩
        · rw [drop_eq_getElem_cons inside, map_cons]
        · rw [if_pos inside, stores.get cell]
          rfl
      · refine .inl ⟨?_, by rw [if_neg inside]; rfl⟩
        rw [drop_eq_nil_of_le (by omega), map_nil]
    | listpack lpi => exact ahead.elim
    | ht di => exact ahead.elim
  | listpack lp =>
    cases si with
    | listpack lpi =>
      obtain ⟨front, ⟨capacity, holds⟩, place⟩ := ahead
      have reached : listpackNext lp lpi = .ok (startOf front rest) := by
        rcases place with ⟨rfl, rfl⟩ | ⟨init, x, rfl, rfl⟩
        · exact holds.first
        · rw [append_assoc] at holds
          exact holds.next
      dsimp only [setTypeNext]
      rw [reached, ok_bind]
      cases rest with
      | nil => exact .inl ⟨rfl, rfl⟩
      | cons s rest =>
        obtain ⟨entry, got, stands⟩ := holds.getValue
        refine .inr ⟨s, rest, entry, .listpack (some (entryOffset front)), rfl, ?_, stands, front ++ [s], ?_, .inr ?_⟩
        · rw [startOf, head?_cons, Option.map_some]
          dsimp only
          rw [got]
          rfl
        · exact ⟨capacity, by simpa using holds⟩
        · exact ⟨front, s, rfl, rfl⟩
    | intset ii => exact ahead.elim
    | ht di => exact ahead.elim
  | ht d =>
    cases si with
    | ht di =>
      obtain ⟨invariant, started, rfl⟩ := ahead
      dsimp only [setTypeNext]
      rcases dictNext_spec invariant started with ⟨none, ended⟩ | ⟨entry, more, next, split, reached, ahead', started'⟩
      · rw [none, ended]
        exact .inl ⟨rfl, rfl⟩
      · rw [split, reached]
        exact .inr ⟨entry.1, _, .string entry.1, .ht next, rfl, rfl, rfl, invariant, started', by rw [ahead']⟩
    | intset ii => exact ahead.elim
    | listpack lpi => exact ahead.elim

theorem forMembers_rule {A : Type} {body : LpEntry → A → Checked A} {allowed : Fault → Prop}
    (invariant : List Sds → A → Prop) {fuel : Nat} (fueled : rest.length < fuel) {seen : List Sds} {acc : A}
    (ahead : Ahead setDictType rest set si) (split : strings = seen ++ rest) (holds : invariant seen acc)
    (step : ∀ seen s rest entry acc, strings = seen ++ s :: rest → EntryOf s entry → invariant seen acc →
      Outcome (body entry acc) allowed (invariant (seen ++ [s]))) :
    Outcome (forMembers set body fuel si acc) allowed (invariant strings) := by
  induction fuel generalizing rest seen si acc with
  | zero => omega
  | succ fuel ih =>
    rw [forMembers]
    rcases setTypeNext_spec ahead with ⟨rfl, ended⟩ | ⟨s, rest', entry, si', rfl, reached, stands, ahead'⟩
    · rw [ended, split, append_nil]
      exact holds
    · rw [reached]
      refine (step seen s rest' entry acc split stands holds).bind fun acc' holds' => ?_
      exact ih (by simpa using fueled) ahead' (by rw [split]; simp) holds'

theorem Lists.length_le (lists : Lists setDictType strings set) : strings.length ≤ memberBound set := by
  cases set with
  | intset is =>
    obtain ⟨values, stores, rfl⟩ := lists
    rw [length_map, memberBound, stores.length]
  | listpack lp =>
    obtain ⟨capacity, holds⟩ := lists
    have within := holds.within
    have bounded := (show Holds capacity lp ([] ++ strings) from holds).chainFrom.le
    rw [length_entryOffsets, nil_append] at bounded
    rw [memberBound]
    omega
  | ht d =>
    obtain ⟨invariant, rfl⟩ := lists
    rw [memberBound, invariant.dictSize_eq, length_map]

theorem Lists.iterate {A : Type} {body : LpEntry → A → Checked A} {allowed : Fault → Prop} {acc : A}
    (lists : Lists setDictType strings set) (invariant : List Sds → A → Prop) (holds : invariant [] acc)
    (step : ∀ seen s rest entry acc, strings = seen ++ s :: rest → EntryOf s entry → invariant seen acc →
      Outcome (body entry acc) allowed (invariant (seen ++ [s]))) :
    Outcome (iterate set body acc) allowed (invariant strings) :=
  forMembers_rule invariant (Nat.lt_succ_of_le lists.length_le) lists.start (nil_append strings).symm holds step

theorem Lists.members (lists : Lists setDictType strings set) : members set = .ok strings := by
  have collected : Outcome (SetType.members set) (fun _ => False) (· = strings) := by
    refine (lists.iterate (fun seen acc => acc = seen) rfl ?_).mono fun acc same => same
    rintro seen s rest entry acc split stands rfl
    rw [entryText_of stands]
    rfl
  obtain ⟨acc, ran, rfl⟩ := collected.exists_ok
  exact ran

end Redis.SetType

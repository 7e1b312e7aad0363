import Mathlib.Data.Finmap
import Mathlib.Tactic

namespace Foundation
open List
variable {K V : Type} [DecidableEq K]

/-- A list of entries and a finite map relate the same keys to the same values. -/
def Represents (entries : List (K × V)) (map : Finmap fun _ : K => V) : Prop :=
  ∀ key val, map.lookup key = some val ↔ (key, val) ∈ entries

variable {entries rest : List (K × V)} {map : Finmap fun _ : K => V} {key : K} {val old : V}

theorem represents_nil : Represents ([] : List (K × V)) ∅ := by
  intro key val
  simp

variable (represents : Represents entries map)
include represents
theorem Represents.perm (same : rest.Perm entries) : Represents rest map := by
  intro key val
  rw [represents key val, same.mem_iff]

theorem Represents.lookup_of_mem (member : (key, val) ∈ entries) : map.lookup key = some val :=
  (represents key val).mpr member

theorem Represents.lookup_of_not_mem (absent : ∀ val, (key, val) ∉ entries) : map.lookup key = none := by
  cases found : map.lookup key with
  | none => rfl
  | some val => exact absurd ((represents key val).mp found) (absent val)

theorem Represents.mem_keys_iff : key ∈ map ↔ key ∈ entries.map Prod.fst := by
  rw [Finmap.mem_iff]
  constructor
  · rintro ⟨val, found⟩
    exact mem_map.mpr ⟨(key, val), (represents key val).mp found, rfl⟩
  · intro member
    obtain ⟨⟨_, val⟩, inside, rfl⟩ := mem_map.mp member
    exact ⟨val, represents.lookup_of_mem inside⟩

theorem Represents.insert (absent : ∀ val, (key, val) ∉ entries) :
    Represents ((key, val) :: entries) (map.insert key val) := by
  intro other found
  by_cases same : other = key
  · subst same
    simp [absent found, eq_comm]
  · rw [Finmap.lookup_insert_of_ne map same, represents other found]
    simp [same]

omit represents

theorem keys_insert (key : K) (val : V) : (map.insert key val).keys = insert key map.keys := by
  ext other
  simp [Finmap.mem_keys]

theorem Represents.erase (represents : Represents ((key, val) :: rest) map)
    (absent : ∀ val, (key, val) ∉ rest) : Represents rest (map.erase key) := by
  intro other found
  by_cases same : other = key
  · subst same
    simp [absent found]
  · rw [Finmap.lookup_erase_ne same, represents other found]
    simp [same]

theorem Represents.replace (represents : Represents ((key, old) :: rest) map) (absent : ∀ val, (key, val) ∉ rest) :
    Represents ((key, val) :: rest) (map.insert key val) := by
  have erased : (map.erase key).insert key val = map.insert key val := by
    apply Finmap.ext_lookup
    intro other
    by_cases same : other = key
    · subst same
      simp
    · rw [Finmap.lookup_insert_of_ne _ same, Finmap.lookup_insert_of_ne _ same, Finmap.lookup_erase_ne same]
  exact erased ▸ (represents.erase absent).insert absent

theorem Represents.card_keys (represents : Represents entries map)
    (distinct : (entries.map Prod.fst).Nodup) : map.keys.card = entries.length := by
  have keys : map.keys = (entries.map Prod.fst).toFinset := by
    ext key
    rw [Finmap.mem_keys, represents.mem_keys_iff, mem_toFinset]
  rw [keys, toFinset_card_of_nodup distinct, length_map]

theorem erase_of_lookup_eq_none (absent : map.lookup key = none) : map.erase key = map := by
  apply Finmap.ext_lookup
  intro other
  by_cases same : other = key
  · rw [same, Finmap.lookup_erase, absent]
  · rw [Finmap.lookup_erase_ne same]

omit [DecidableEq K] in
theorem not_mem_of_nodup_cons (distinct : (((key, val) :: rest).map Prod.fst).Nodup) (other : V) :
    (key, other) ∉ rest := by
  intro member
  exact (nodup_cons.mp distinct).1 (mem_map.mpr ⟨_, member, rfl⟩)

theorem exists_represents (entries : List (K × V)) (distinct : (entries.map Prod.fst).Nodup) :
    ∃ map : Finmap fun _ : K => V, Represents entries map := by
  induction entries with
  | nil => exact ⟨∅, represents_nil⟩
  | cons entry rest ih =>
    obtain ⟨map, represents⟩ := ih (nodup_cons.mp distinct).2
    exact ⟨map.insert entry.1 entry.2, represents.insert (not_mem_of_nodup_cons distinct)⟩

end Foundation

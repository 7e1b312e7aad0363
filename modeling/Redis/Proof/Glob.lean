import Mathlib.Data.List.DropRight
import Redis.Construction.Glob

namespace Redis.Glob
open List

/-- The bytes of a class and the pattern after it. An unterminated class ends with the pattern. -/
def classOf (type : CharType) : List UInt8 → Set UInt8 × List UInt8
  | 92 :: escaped :: rest => (insert escaped (classOf type rest).1, (classOf type rest).2)
  | 93 :: rest => (∅, rest)
  | [] => (∅, [])
  | start :: 45 :: stop :: rest =>
    ({byte | type.value byte ∈ Set.uIcc (type.value start) (type.value stop)} ∪ (classOf type rest).1,
      (classOf type rest).2)
  | single :: rest => (insert single (classOf type rest).1, (classOf type rest).2)

/-- The bytes that the first piece of a pattern matches, if it is no star, and the rest of the pattern. -/
def pieceOf (type : CharType) : List UInt8 → Set UInt8 × List UInt8
  | 63 :: rest => (Set.univ, rest)
  | 91 :: 94 :: rest => ((classOf type rest).1ᶜ, (classOf type rest).2)
  | 91 :: rest => classOf type rest
  | 92 :: escaped :: rest => ({escaped}, rest)
  | single :: rest => ({single}, rest)
  | [] => (∅, [])

/-- The grammar of glob patterns. -/
inductive Matches (type : CharType) : List UInt8 → List UInt8 → Prop where
  | nil : Matches type [] []
  | star (inside : later <:+ string) (matched : Matches type rest later) : Matches type (42 :: rest) string
  | piece (plain : first ≠ 42) (member : byte ∈ (pieceOf type (first :: rest)).1)
      (matched : Matches type (pieceOf type (first :: rest)).2 string) : Matches type (first :: rest) (byte :: string)

variable {type : CharType} {nocase sets : Bool} {nesting : Nat} {pattern rest string : List UInt8} {first byte : UInt8}

theorem classLoop_snd (found : Bool) : (classLoop type nocase byte pattern found).2 = (classOf type pattern).2 := by
  fun_induction classLoop type nocase byte pattern found <;> simp_all [classOf]

theorem classLoop_fst (found : Bool) :
    (classLoop type false byte pattern found).1 = true ↔ found = true ∨ byte ∈ (classOf type pattern).1 := by
  fun_induction classLoop type false byte pattern found <;>
    simp_all [classOf, inRange, sameByte, or_assoc, Set.uIcc, eq_comm (a := byte)]

theorem element_snd : (element type nocase byte pattern).2 = (pieceOf type pattern).2 := by
  fun_cases element type nocase byte pattern <;> simp_all [pieceOf, classLoop_snd]

theorem element_fst : (element type false byte pattern).1 = true ↔ byte ∈ (pieceOf type pattern).1 := by
  fun_cases element type false byte pattern
  case case2 => simp [pieceOf, ← Bool.not_eq_true, classLoop_fst]
  all_goals simp_all [pieceOf, classLoop_fst, sameByte, eq_comm (a := byte)]

theorem pieceOf_suffix (type : CharType) (first : UInt8) (rest : List UInt8) :
    (pieceOf type (first :: rest)).2 <:+ rest := by
  have inside := element_suffix type false 0 (first :: rest)
  rwa [element_snd] at inside

theorem afterStars_cons (plain : first ≠ 42) : afterStars (first :: rest) = first :: rest := by simp [afterStars, plain]

theorem afterStars_suffix (rest : List UInt8) : afterStars rest <:+ rest := dropWhile_suffix _

/-- A run of the matcher from a clear flag. -/
abbrev run (type : CharType) (nocase sets : Bool) (nesting : Nat) (pattern string : List UInt8) : Bool × Bool :=
  stringmatchlenImpl type nocase sets nesting pattern string false

theorem run_deep (deep : nesting > 1000) : run type nocase sets nesting pattern string = (false, false) := by
  rw [run, stringmatchlenImpl.eq_def, if_pos deep]

theorem run_nil (shallow : ¬nesting > 1000) : run type nocase sets nesting [] string = (string.isEmpty, false) := by
  rw [run, stringmatchlenImpl, if_neg shallow]

theorem run_cons_nil : run type nocase sets nesting (first :: rest) [] = (false, false) := by
  rw [run, stringmatchlenImpl]
  split <;> rfl

theorem run_star (shallow : ¬nesting > 1000) : run type nocase sets nesting (42 :: rest) (byte :: string) =
    if afterStars rest = [] then (true, false) else
      starLoop sets (stringmatchlenImpl type nocase sets (nesting + 1) (afterStars rest)) (byte :: string) false := by
  rw [run, stringmatchlenImpl, if_neg shallow, if_pos rfl]

theorem run_piece (shallow : ¬nesting > 1000) (plain : first ≠ 42) :
    run type nocase sets nesting (first :: rest) (byte :: string) =
      if (element type nocase byte (first :: rest)).1 = false then (false, false)
      else if string = [] then (afterStars (pieceOf type (first :: rest)).2 = [], false)
      else run type nocase sets nesting (pieceOf type (first :: rest)).2 string := by
  rw [run, stringmatchlenImpl, if_neg shallow, if_neg plain, element_snd]

section Flag
variable {attempt : List UInt8 → Bool → Bool × Bool} {plain : List UInt8 → Bool}

/-- An attempt that sets the flag has shown that no later rest of the string matches. -/
theorem starLoop_spec (sound : ∀ tail, (attempt tail false).1 = plain tail ∧
      ((attempt tail false).2 = true → ∀ later, later <:+ tail → plain later = false)) :
    ((starLoop sets attempt string false).1 = true ↔ ∃ tail, tail ≠ [] ∧ tail <:+ string ∧ plain tail = true) ∧
      ((starLoop sets attempt string false).2 = true → (starLoop sets attempt string false).1 = false) := by
  induction string with
  | nil => simp [starLoop]
  | cons byte string ih =>
    obtain ⟨result, skipped⟩ := sound (byte :: string)
    rw [starLoop, result]
    cases matched : plain (byte :: string) with
    | true =>
      have clear : (attempt (byte :: string) false).2 ≠ true := fun flagged => by
        simp [skipped flagged _ suffix_rfl] at matched
      exact ⟨⟨fun _ => ⟨_, cons_ne_nil _ _, suffix_rfl, matched⟩, fun _ => rfl⟩, fun flagged => absurd flagged clear⟩
    | false =>
      cases flag : (attempt (byte :: string) false).2 with
      | true => grind
      | false =>
        have longer (tail : List UInt8) : tail <:+ byte :: string ∧ plain tail = true ↔
            tail <:+ string ∧ plain tail = true := by
          rw [suffix_cons_iff]
          grind
        simpa [longer] using ih

theorem starLoop_quiet (quiet : ∀ tail, (attempt tail false).2 = false) :
    (starLoop false attempt string false).2 = false := by
  induction string with
  | nil => rfl
  | cons byte string ih =>
    rw [starLoop]
    cases (attempt (byte :: string) false).1 <;> simp [quiet, ih]

/-- The matcher that never sets the flag gives the same result. Once the flag is set, no rest of the string matches. -/
structure Sound (type : CharType) (nocase : Bool) (nesting : Nat) (pattern string : List UInt8) : Prop where
  quiet : (run type nocase false nesting pattern string).2 = false
  same : (run type nocase true nesting pattern string).1 = (run type nocase false nesting pattern string).1
  more : (run type nocase true nesting pattern string).2 = true → afterStars pattern ≠ []
  dead : (run type nocase true nesting pattern string).2 = true → ∀ tail, tail <:+ string →
    (run type nocase false nesting pattern tail).1 = false

theorem run_star_spec (shallow : ¬nesting > 1000) (more : afterStars rest ≠ [])
    (sound : ∀ tail, Sound type nocase (nesting + 1) (afterStars rest) tail) :
    ((run type nocase sets nesting (42 :: rest) string).1 = true ↔ ∃ tail, tail ≠ [] ∧ tail <:+ string ∧
        (run type nocase false (nesting + 1) (afterStars rest) tail).1 = true) ∧
      ((run type nocase sets nesting (42 :: rest) string).2 = true →
        (run type nocase sets nesting (42 :: rest) string).1 = false) := by
  cases string with
  | nil => simp [run_cons_nil]
  | cons byte string =>
    rw [run_star shallow, if_neg more]
    apply starLoop_spec
    intro tail
    cases sets with
    | true => exact ⟨(sound tail).same, (sound tail).dead⟩
    | false => exact ⟨rfl, fun flagged => by simp [(sound tail).quiet] at flagged⟩

theorem sound_star (shallow : ¬nesting > 1000) (more : afterStars rest ≠ [])
    (sound : ∀ tail, Sound type nocase (nesting + 1) (afterStars rest) tail) :
    Sound type nocase nesting (42 :: rest) (byte :: string) := by
  constructor
  · rw [run_star shallow, if_neg more]
    exact starLoop_quiet fun tail => (sound tail).quiet
  · exact Bool.eq_iff_iff.mpr ((run_star_spec shallow more sound).1.trans (run_star_spec shallow more sound).1.symm)
  · intro _
    exact more
  · intro flagged tail inside
    have none := (run_star_spec shallow more sound).2 flagged
    rw [← Bool.not_eq_true, (run_star_spec shallow more sound).1] at none ⊢
    rintro ⟨later, nonempty, within, matched⟩
    exact none ⟨later, nonempty, within.trans inside, matched⟩

theorem sound_piece (shallow : ¬nesting > 1000) (plain : first ≠ 42)
    (sound : ∀ tail, Sound type nocase nesting (pieceOf type (first :: rest)).2 tail) :
    Sound type nocase nesting (first :: rest) (byte :: string) := by
  have next := sound string
  constructor
  · rw [run_piece shallow plain]
    split_ifs <;> simp [next.quiet]
  · rw [run_piece shallow plain, run_piece shallow plain]
    split_ifs <;> simp [next.same]
  · rw [afterStars_cons plain]
    simp
  · rw [run_piece shallow plain]
    intro flagged tail inside
    split_ifs at flagged
    cases tail with
    | nil => rw [run_cons_nil]
    | cons other tail =>
      have within : tail <:+ string := by
        rcases suffix_cons_iff.mp inside with same | inside
        · cases same
          exact suffix_rfl
        · exact (suffix_cons other tail).trans inside
      rw [run_piece shallow plain]
      split_ifs
      · rfl
      · exact decide_eq_false (next.more flagged)
      · exact next.dead flagged tail within

theorem run_sound (type : CharType) (nocase : Bool) (nesting : Nat) (pattern string : List UInt8) :
    Sound type nocase nesting pattern string := by
  by_cases deep : nesting > 1000
  · constructor <;> simp [run_deep deep]
  cases pattern with
  | nil => constructor <;> simp [run_nil deep]
  | cons first rest =>
    cases string with
    | nil => constructor <;> simp [run_cons_nil]
    | cons byte string =>
      by_cases star : first = 42
      · subst star
        by_cases stars : afterStars rest = []
        · constructor <;> simp [run_star deep, stars]
        · exact sound_star deep stars (run_sound type nocase (nesting + 1) (afterStars rest))
      · exact sound_piece deep star (run_sound type nocase nesting (pieceOf type (first :: rest)).2)
termination_by pattern.length
decreasing_by
  · exact Nat.lt_succ_of_le (afterStars_suffix rest).length_le
  · exact Nat.lt_succ_of_le (pieceOf_suffix type first rest).length_le

/-- The flag never changes a result, and each step of the matcher leaves a shorter pattern. -/
theorem stringmatchlen_skipLongerMatches (type : CharType) (nocase : Bool) (pattern string : List UInt8) :
    stringmatchlen type nocase pattern string = (stringmatchlenImpl type nocase false 0 pattern string false).1 ∧
      ∀ byte first rest, (element type nocase byte (first :: rest)).2.length < (first :: rest).length ∧
        (afterStars rest).length < (first :: rest).length :=
  ⟨(run_sound type nocase 0 pattern string).same, fun byte first rest =>
    ⟨Nat.lt_succ_of_le (element_suffix type nocase byte (first :: rest)).length_le,
      Nat.lt_succ_of_le (afterStars_suffix rest).length_le⟩⟩
end Flag

theorem matches_nil_iff : Matches type pattern [] ↔ afterStars pattern = [] := by
  induction pattern with
  | nil => exact ⟨fun _ => rfl, fun _ => .nil⟩
  | cons first rest ih =>
    by_cases star : first = 42
    · subst star
      refine Iff.trans ⟨fun matched => ?_, .star suffix_rfl⟩ ih
      cases matched with
      | star inside later => exact suffix_nil.mp inside ▸ later
    · rw [afterStars_cons star]
      refine ⟨fun matched => ?_, fun empty => by cases empty⟩
      cases matched
      exact absurd rfl star

theorem matches_star_iff : Matches type (42 :: rest) string ↔
    ∃ tail, tail <:+ string ∧ Matches type (afterStars rest) tail := by
  have skips (rest string : List UInt8) : Matches type (42 :: rest) string ↔
      ∃ tail, tail <:+ string ∧ Matches type rest tail := by
    constructor
    · intro matched
      cases matched with
      | star inside later => exact ⟨_, inside, later⟩
      | piece plain => exact absurd rfl plain
    · rintro ⟨tail, inside, later⟩
      exact .star inside later
  induction rest generalizing string with
  | nil => exact skips [] string
  | cons first rest ih =>
    by_cases star : first = 42
    · subst star
      rw [skips]
      constructor
      · rintro ⟨tail, inside, matched⟩
        obtain ⟨later, within, matched⟩ := ih.mp matched
        exact ⟨later, within.trans inside, matched⟩
      · rintro ⟨tail, inside, matched⟩
        exact ⟨tail, inside, ih.mpr ⟨tail, suffix_rfl, matched⟩⟩
    · rw [afterStars_cons star, skips]

theorem matches_piece_iff (plain : first ≠ 42) : Matches type (first :: rest) (byte :: string) ↔
    (element type false byte (first :: rest)).1 = true ∧ Matches type (pieceOf type (first :: rest)).2 string := by
  rw [element_fst]
  constructor
  · intro matched
    cases matched with
    | star => exact absurd rfl plain
    | piece _ member later => exact ⟨member, later⟩
  · rintro ⟨member, later⟩
    exact .piece plain member later

/-- The result of a run that stays below the limit of the nesting. The grammar differs only at the empty string. -/
def Correct (type : CharType) (nesting : Nat) (pattern string : List UInt8) : Prop :=
  nesting + pattern.count 42 ≤ 1000 → ((run type false false nesting pattern string).1 = true ↔
    Matches type pattern string ∧ (string = [] → pattern = []))

theorem correct_star (ih : ∀ tail, Correct type (nesting + 1) (afterStars rest) tail) :
    Correct type nesting (42 :: rest) (byte :: string) := by
  intro few
  have fewer := (afterStars_suffix rest).sublist.count_le 42
  rw [count_cons_self] at few
  rw [and_iff_left (fun empty => by cases empty), matches_star_iff]
  by_cases stars : afterStars rest = []
  · rw [run_star (by omega), if_pos stars, stars]
    exact ⟨fun _ => ⟨[], nil_suffix, .nil⟩, fun _ => rfl⟩
  · rw [(run_star_spec (by omega) stars (run_sound type false (nesting + 1) _)).1]
    constructor
    · rintro ⟨tail, nonempty, inside, found⟩
      exact ⟨tail, inside, ((ih tail (by omega)).mp found).1⟩
    · rintro ⟨tail, inside, matched⟩
      have nonempty : tail ≠ [] := by
        rintro rfl
        rw [matches_nil_iff, afterStars, afterStars, dropWhile_idempotent] at matched
        exact stars matched
      exact ⟨tail, nonempty, inside, (ih tail (by omega)).mpr ⟨matched, fun empty => absurd empty nonempty⟩⟩

theorem correct_piece (plain : first ≠ 42) (ih : Correct type nesting (pieceOf type (first :: rest)).2 string) :
    Correct type nesting (first :: rest) (byte :: string) := by
  intro few
  have fewer := (pieceOf_suffix type first rest).sublist.count_le 42
  rw [count_cons_of_ne plain] at few
  rw [run_piece (by omega) plain, matches_piece_iff plain]
  split_ifs with differs last
  · simp [differs]
  · rw [last, matches_nil_iff]
    simp [differs]
  · rw [ih (by omega)]
    simp [differs, last]

theorem run_correct (type : CharType) (nesting : Nat) (pattern string : List UInt8) :
    Correct type nesting pattern string := by
  cases pattern with
  | nil =>
    intro few
    rw [run_nil (by omega), List.isEmpty_iff]
    refine ⟨fun empty => ⟨empty.symm ▸ .nil, fun _ => rfl⟩, fun matched => ?_⟩
    cases matched.1
    rfl
  | cons first rest =>
    cases string with
    | nil => simp [Correct, run_cons_nil]
    | cons byte string =>
      by_cases star : first = 42
      · subst star
        exact correct_star (run_correct type (nesting + 1) (afterStars rest))
      · exact correct_piece star (run_correct type nesting (pieceOf type (first :: rest)).2 string)
termination_by pattern.length
decreasing_by
  · exact Nat.lt_succ_of_le (afterStars_suffix rest).length_le
  · exact Nat.lt_succ_of_le (pieceOf_suffix type first rest).length_le

/-- The matcher decides the grammar except for a pattern of stars and the empty string. -/
theorem stringmatchlen_iff_matches (type : CharType) (pattern string : List UInt8) (few : pattern.count 42 ≤ 1000) :
    (stringmatchlen type false pattern string = true ↔ Matches type pattern string) ↔
      ¬(string = [] ∧ pattern ≠ [] ∧ ∀ byte ∈ pattern, byte = 42) := by
  rw [stringmatchlen, (run_sound type false 0 pattern string).same, run_correct type 0 pattern string (by omega)]
  by_cases empty : string = []
  · have stars : afterStars pattern = [] ↔ ∀ byte ∈ pattern, byte = 42 := by simp [afterStars, dropWhile_eq_nil_iff]
    rw [empty, matches_nil_iff, stars]
    tauto
  · tauto

/-- A platform with a signed `char`. -/
def signedChar : CharType := ⟨fun byte => byte.toInt8.toInt, id⟩

theorem stringmatchlen_iff_matches_sample : stringmatchlen signedChar false [42, 98] [97, 98] = true :=
  ((stringmatchlen_iff_matches signedChar [42, 98] [97, 98] (by decide)).mpr (fun empty => by cases empty.1)).mpr
    (.star (suffix_cons 97 [98]) (.piece (by decide) (by simp [pieceOf]) .nil))

/-- The loop over the string is not entered, so that the star stays. -/
theorem stringmatchlen_star_empty : stringmatchlen signedChar false [42] [] = false ∧ Matches signedChar [42] [] :=
  ⟨congrArg Prod.fst run_cons_nil, .star suffix_rfl .nil⟩

end Redis.Glob

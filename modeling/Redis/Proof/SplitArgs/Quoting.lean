import Redis.Construction.SplitArgs

namespace Redis.SplitArgs
open List
variable {char : UInt8} {word token behind p : Sds} {skip : Nat}

theorem splitLoop_skip (vector : List Sds) (skip : Nat) (p : Sds) :
    splitLoop vector skip p = splitLoop vector 0 (p.drop skip) := by
  induction p generalizing skip with
  | nil => rw [drop_nil, splitLoop, splitLoop]
  | cons char rest ih =>
    cases skip with
    | zero => rfl
    | succ skip =>
      rw [drop_succ_cons, ← ih skip]
      rfl

section Quoted
variable (current rest : Sds)

theorem getToken_double_hex {first second : UInt8} (hex : isHexDigit first = true) (hex' : isHexDigit second = true) :
    getToken .double current 0 ([92, 120, first, second] ++ rest) =
      getToken .double (current ++ [UInt8.ofNat (hexDigitToInt first * 16 + hexDigitToInt second)]) 0 rest := by
  rw [show [92, 120, first, second] ++ rest = 92 :: 120 :: first :: second :: rest from rfl, getToken]
  rw [if_pos ⟨rfl, rfl, hex, hex'⟩]
  rfl

theorem getToken_double_escape (plain : char ≠ 120) (inside : char ≠ 0) :
    getToken .double current 0 ([92, char] ++ rest) = getToken .double (current ++ [unescape char]) 0 rest := by
  rw [show [92, char] ++ rest = 92 :: char :: rest from rfl, getToken]
  rw [if_neg fun hex => plain hex.2.1, if_pos ⟨rfl, inside⟩]
  rfl

theorem getToken_double_char (noEscape : char ≠ 92) (noQuote : char ≠ 34) (inside : char ≠ 0) :
    getToken .double current 0 (char :: rest) = getToken .double (current ++ [char]) 0 rest := by
  rw [getToken, if_neg fun hex => noEscape hex.1, if_neg fun escape => noEscape escape.1, if_neg noQuote, if_neg inside]

theorem hexDigit_reads {digit : Nat} (small : digit < 16) :
    isHexDigit (hexDigit digit) = true ∧ hexDigitToInt (hexDigit digit) = digit := by
  interval_cases digit <;> decide

theorem getToken_reprChar (char : UInt8) :
    getToken .double current 0 (reprChar char ++ rest) = getToken .double (current ++ [char]) 0 rest := by
  rw [reprChar]
  split_ifs with special newline carriage tab bell backspace print
  · rcases special with rfl | rfl
    · exact getToken_double_escape current rest (by decide) (by decide)
    · exact getToken_double_escape current rest (by decide) (by decide)
  · exact newline ▸ getToken_double_escape current rest (by decide) (by decide)
  · exact carriage ▸ getToken_double_escape current rest (by decide) (by decide)
  · exact tab ▸ getToken_double_escape current rest (by decide) (by decide)
  · exact bell ▸ getToken_double_escape current rest (by decide) (by decide)
  · exact backspace ▸ getToken_double_escape current rest (by decide) (by decide)
  · rw [not_or] at special
    refine getToken_double_char current rest special.1 special.2 ?_
    rintro rfl
    exact absurd print (by decide)
  · have range : char.toNat < 256 := char.toNat_lt
    obtain ⟨high, highValue⟩ := @hexDigit_reads (char.toNat / 16) (by omega)
    obtain ⟨low, lowValue⟩ := @hexDigit_reads (char.toNat % 16) (by omega)
    rw [getToken_double_hex current rest high low, highValue, lowValue, Nat.div_add_mod' char.toNat 16,
      UInt8.ofNat_toNat]

theorem getToken_repr (p : Sds) (closed : closes (34 :: rest) = true) :
    getToken .double current 0 (p.flatMap reprChar ++ 34 :: rest) = some (current ++ p, rest) := by
  induction p generalizing current with
  | nil =>
    rw [flatMap_nil, nil_append, getToken, if_neg (by simp), if_neg (by simp), if_pos rfl, if_pos closed, append_nil]
  | cons char p ih =>
    rw [flatMap_cons, append_assoc, getToken_reprChar, ih, append_assoc]
    rfl
end Quoted

/-- A character that stands for itself outside of quotes. -/
def Plain (char : UInt8) : Prop := char ≠ 0 ∧ ¬(char = 32 ∨ char = 10 ∨ char = 13 ∨ char = 9) ∧ char ≠ 34 ∧ char ≠ 39

instance (char : UInt8) : Decidable (Plain char) := inferInstanceAs (Decidable (_ ∧ _))

theorem getToken_plain_char (plain : Plain char) (current rest : Sds) :
    getToken .none current 0 (char :: rest) = getToken .none (current ++ [char]) 0 rest := by
  obtain ⟨inside, noSpace, noQuote, noApostrophe⟩ := plain
  rw [getToken, if_neg inside, if_neg noSpace, if_neg noQuote, if_neg noApostrophe]

theorem getToken_plain (plain : ∀ char ∈ word, Plain char) (current rest : Sds) :
    getToken .none current 0 (word ++ rest) = getToken .none (current ++ word) 0 rest := by
  induction word generalizing current with
  | nil => rw [nil_append, append_nil]
  | cons char word ih =>
    rw [cons_append, getToken_plain_char (plain char mem_cons_self), ih (forall_mem_cons.mp plain).2, append_assoc]
    rfl

theorem getToken_word (plain : ∀ char ∈ word, Plain char) (rest : Sds) :
    getToken .none [] 0 (word ++ 32 :: rest) = some (word, rest) := by
  rw [getToken_plain plain, getToken, if_neg (by decide), if_pos (.inl rfl), nil_append]

theorem getToken_last (plain : ∀ char ∈ word, Plain char) : getToken .none [] 0 word = some (word, []) := by
  have read := getToken_plain plain [] []
  rwa [append_nil] at read

theorem getToken_sdscatrepr (p : Sds) {rest : Sds} (closed : closes (34 :: rest) = true) :
    getToken .none [] 0 (sdscatrepr [] p ++ rest) = some (p, rest) := by
  rw [sdscatrepr, nil_append, append_assoc, append_assoc, singleton_append, getToken, if_neg (by decide),
    if_neg (by decide), if_pos rfl, singleton_append, getToken_repr [] rest p closed, nil_append]

/-- The loop over the tokens takes a token and goes on behind it. -/
theorem splitLoop_token {rest : Sds} (inside : char ≠ 0) (noSpace : isspace char = false)
    (read : getToken .none [] 0 (char :: rest) = some (token, behind)) (tail : behind <:+ rest) (vector : List Sds) :
    splitLoop vector 0 (char :: rest) = splitLoop (vector ++ [token]) 0 behind := by
  rw [splitLoop, if_neg inside, if_neg (by rw [noSpace]; exact Bool.false_ne_true), read]
  dsimp only
  obtain ⟨front, rfl⟩ := tail
  rw [splitLoop_skip, length_append, Nat.add_sub_cancel, drop_left]

theorem splitLoop_space (vector : List Sds) (rest : Sds) : splitLoop vector 0 (32 :: rest) = splitLoop vector 0 rest := by
  rw [splitLoop, if_neg (by decide), if_pos (by decide)]

theorem splitLoop_word (plain : ∀ other ∈ char :: word, Plain other)
    (noSpace : isspace char = false) (vector : List Sds) (rest : Sds) :
    splitLoop vector 0 (char :: word ++ 32 :: rest) = splitLoop (vector ++ [char :: word]) 0 rest := by
  have read := getToken_word plain rest
  exact splitLoop_token (plain char mem_cons_self).1 noSpace read
    ((suffix_cons 32 rest).trans (suffix_append word _)) vector

theorem splitLoop_last (plain : ∀ other ∈ char :: word, Plain other)
    (noSpace : isspace char = false) (vector : List Sds) :
    splitLoop vector 0 (char :: word) = some (vector ++ [char :: word]) := by
  rw [splitLoop_token (plain char mem_cons_self).1 noSpace (getToken_last plain) (nil_suffix) vector, splitLoop]

theorem splitLoop_quoted (p : Sds) (vector : List Sds) {rest : Sds} (closed : closes (34 :: rest) = true) :
    splitLoop vector 0 (sdscatrepr [] p ++ rest) = splitLoop (vector ++ [p]) 0 rest := by
  have read := getToken_sdscatrepr p closed
  rw [sdscatrepr, nil_append, append_assoc, append_assoc, singleton_append] at read ⊢
  exact splitLoop_token (by decide) (by decide) read (suffix_append_of_suffix (suffix_append [34] rest)) vector

theorem splitLoop_sdscatrepr (p : Sds) (vector : List Sds) (rest : Sds) :
    splitLoop vector 0 (sdscatrepr [] p ++ 32 :: rest) = splitLoop (vector ++ [p]) 0 rest := by
  rw [splitLoop_quoted p vector rfl, splitLoop_space]

theorem splitLoop_join (words vector : List Sds) :
    splitLoop vector 0 ([32].intercalate (words.map (sdscatrepr []))) = some (vector ++ words) := by
  induction words generalizing vector with
  | nil => exact congrArg some (append_nil vector).symm
  | cons word words ih =>
    cases words with
    | nil =>
      have read := @splitLoop_quoted word vector [] rfl
      rw [append_nil] at read
      rw [map_singleton, intercalate_singleton, read]
      rfl
    | cons next words =>
      rw [map_cons, map_cons, intercalate_cons_cons, ← map_cons, append_assoc, singleton_append,
        splitLoop_sdscatrepr, ih, append_assoc]
      rfl

/-- The quoted forms of strings that are joined with spaces are split into the strings. -/
theorem sdssplitargs_join_sdscatrepr (words : List Sds) :
    sdssplitargs ([32].intercalate (words.map (sdscatrepr []))) = some words :=
  splitLoop_join words []

/-- A string that needs no quotes consists of plain characters and apostrophes. -/
theorem plain_of_not_needsrepr {s : Sds} (needs : sdsneedsrepr s = false) (noApostrophe : 39 ∉ s) :
    ∀ char ∈ s, Plain char ∧ isspace char = false := by
  intro char member
  have unquoted := any_eq_false.mp needs char member
  simp only [decide_eq_true_eq, not_or] at unquoted
  obtain ⟨-, noQuote, noLine, noReturn, noTab, -, -, print, noSpace⟩ := unquoted
  refine ⟨⟨?_, ?_, noQuote, fun same => noApostrophe (same ▸ member)⟩, by simpa using noSpace⟩
  · rintro rfl
    exact print (by decide)
  · rintro (rfl | same)
    · exact noSpace (by decide)
    · rcases same with same | same | same
      · exact noLine same
      · exact noReturn same
      · exact noTab same

/-- Without double quotes and escapes a token has no apostrophe. -/
theorem getToken_apostrophe {quotes : Quotes} {current : Sds} (outside : quotes ≠ .double)
    (noQuote : 34 ∉ p) (noEscape : 92 ∉ p) (clean : 39 ∉ current)
    (read : getToken quotes current skip p = some (token, behind)) : 39 ∉ token := by
  induction p generalizing quotes current skip with
  | nil =>
    rw [getToken] at read
    split_ifs at read
    cases read
    exact clean
  | cons char rest ih =>
    rw [mem_cons, not_or] at noQuote noEscape
    have next : ∀ {quotes current skip}, quotes ≠ Quotes.double → 39 ∉ current →
        getToken quotes current skip rest = some (token, behind) → 39 ∉ token :=
      fun outside clean read => ih outside noQuote.2 noEscape.2 clean read
    have added : char ≠ 39 → 39 ∉ current ++ [char] := fun other inside => by
      rcases mem_append.mp inside with old | new
      · exact clean old
      · exact other (mem_singleton.mp new).symm
    cases skip with
    | succ skip => exact next outside clean read
    | zero =>
      cases quotes with
      | double => exact absurd rfl outside
      | single =>
        rw [getToken] at read
        split_ifs at read with escape quote closed zero
        · exact absurd escape.1.symm noEscape.1
        · cases read
          exact clean
        · exact next Quotes.noConfusion (added quote) read
      | none =>
        rw [getToken] at read
        split_ifs at read with zero space quote apostrophe
        · cases read
          exact clean
        · cases read
          exact clean
        · exact absurd quote.symm noQuote.1
        · exact next Quotes.noConfusion clean read
        · exact next Quotes.noConfusion (added apostrophe) read

theorem splitLoop_apostrophe {vector args : List Sds} (noQuote : 34 ∉ p) (noEscape : 92 ∉ p)
    (clean : ∀ arg ∈ vector, 39 ∉ arg) (split : splitLoop vector skip p = some args) : ∀ arg ∈ args, 39 ∉ arg := by
  induction p generalizing vector skip with
  | nil =>
    cases split
    exact clean
  | cons char rest ih =>
    have noQuote' : 34 ∉ rest := fun inside => noQuote (mem_cons_of_mem _ inside)
    have noEscape' : 92 ∉ rest := fun inside => noEscape (mem_cons_of_mem _ inside)
    cases skip with
    | succ skip => exact ih noQuote' noEscape' clean split
    | zero =>
      rw [splitLoop] at split
      split_ifs at split
      · cases split
        exact clean
      · exact ih noQuote' noEscape' clean split
      · split at split
        case h_1 current behind read =>
          apply ih noQuote' noEscape' _ split
          intro arg member
          rcases mem_append.mp member with old | new
          · exact clean arg old
          · rw [mem_singleton.mp new]
            exact getToken_apostrophe Quotes.noConfusion noQuote noEscape not_mem_nil read
        case h_2 => cases split

theorem getToken_single_end (noApostrophe : 39 ∉ p) (noEscape : 92 ∉ p) (current : Sds) :
    getToken .single current 0 p = none := by
  induction p generalizing current with
  | nil => rfl
  | cons char rest ih =>
    rw [mem_cons, not_or] at noApostrophe noEscape
    rw [getToken, if_neg fun escape => noEscape.1 escape.1.symm, if_neg fun quote => noApostrophe.1 quote.symm]
    split_ifs
    · rfl
    · exact ih noApostrophe.2 noEscape.2 _

theorem getToken_single_inside {rest : Sds} (inner : ∀ char ∈ word, char ≠ 92 ∧ char ≠ 0 ∧ isspace char = false)
    (last : word.getLast? ≠ some 39) (noApostrophe : 39 ∉ rest) (noEscape : 92 ∉ rest) (current : Sds) :
    getToken .single current 0 (word ++ 32 :: rest) = none := by
  induction word generalizing current with
  | nil =>
    apply getToken_single_end
    · simpa using noApostrophe
    · simpa using noEscape
  | cons char word ih =>
    obtain ⟨noEscape', inside, -⟩ := inner char mem_cons_self
    rw [cons_append, getToken, if_neg fun escape => noEscape' escape.1]
    cases word with
    | nil =>
      rw [if_neg (by simpa using last), if_neg inside]
      exact ih (forall_mem_nil _) (by simp) _
    | cons next word =>
      obtain ⟨-, inside', noSpace⟩ := inner next (by simp)
      have open' : closes (char :: ((next :: word) ++ 32 :: rest)) = false := by
        simp [closes, charAt, inside', noSpace]
      rw [open', if_neg Bool.false_ne_true]
      split_ifs
      · rfl
      · exact ih (forall_mem_cons.mp inner).2
          (by rwa [getLast?_cons_cons] at last) _

/-- An unquoted word with an apostrophe before its end is an error. -/
theorem getToken_none_inside {rest : Sds}
    (inner : ∀ char ∈ word, char ≠ 92 ∧ char ≠ 34 ∧ char ≠ 0 ∧ isspace char = false) (apostrophe : 39 ∈ word)
    (last : word.getLast? ≠ some 39) (noApostrophe : 39 ∉ rest) (noEscape : 92 ∉ rest) (current : Sds) :
    getToken .none current 0 (word ++ 32 :: rest) = none := by
  induction word generalizing current with
  | nil => exact absurd apostrophe not_mem_nil
  | cons char word ih =>
    obtain ⟨-, noQuote, inside, noSpace⟩ := inner char mem_cons_self
    have noBreak : ¬(char = 32 ∨ char = 10 ∨ char = 13 ∨ char = 9) := by
      rintro (rfl | rfl | rfl | rfl) <;> exact absurd noSpace (by decide)
    have last' : word.getLast? ≠ some 39 := by
      cases word with
      | nil => simp
      | cons next word => rwa [getLast?_cons_cons] at last
    have inner' : ∀ other ∈ word, other ≠ 92 ∧ other ≠ 34 ∧ other ≠ 0 ∧ isspace other = false :=
      (forall_mem_cons.mp inner).2
    rw [cons_append, getToken, if_neg inside]
    split_ifs with quote
    · exact getToken_single_inside (fun other member => ⟨(inner' other member).1, (inner' other member).2.2⟩) last'
        noApostrophe noEscape current
    · apply ih inner' _ last'
      exact (mem_cons.mp apostrophe).resolve_left fun same => quote same.symm

end Redis.SplitArgs

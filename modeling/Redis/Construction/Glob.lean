/-
This file embeds the glob matcher of `util.c`. A pattern and a string end with a terminator, which is no star, no
bracket, and no backslash.
-/

import Mathlib.Tactic

namespace Redis.Glob

/-- The conversion of a `char` to an `int`, whose sign the platform decides, and the function `tolower`. -/
structure CharType where
  value : UInt8 → Int
  tolower : Int → Int

variable (type : CharType) (nocase : Bool) (sets : Bool)

def sameByte (a b : UInt8) : Bool :=
  if nocase then type.tolower (type.value a) = type.tolower (type.value b) else a = b

/-- The ends of a range are exchanged before they become lower case. -/
def inRange (start stop byte : UInt8) : Bool :=
  let low := min (type.value start) (type.value stop)
  let high := max (type.value start) (type.value stop)
  if nocase then type.tolower low ≤ type.tolower (type.value byte) ∧ type.tolower (type.value byte) ≤ type.tolower high
  else low ≤ type.value byte ∧ type.value byte ≤ high

/-- The loop over a class returns the variable `match` and the pattern after the class. -/
def classLoop (byte : UInt8) : List UInt8 → Bool → Bool × List UInt8
  | 92 :: escaped :: rest, found => classLoop byte rest (found || escaped = byte)
  | 93 :: rest, found => (found, rest)
  | [], found => (found, [])
  | start :: 45 :: stop :: rest, found => classLoop byte rest (found || inRange type nocase start stop byte)
  | single :: rest, found => classLoop byte rest (found || sameByte type nocase single byte)

/-- The cases of the switch other than the star, with the pattern that follows. -/
def element (byte : UInt8) : List UInt8 → Bool × List UInt8
  | 63 :: rest => (true, rest)
  | 91 :: 94 :: rest => ((!(classLoop type nocase byte rest false).1), (classLoop type nocase byte rest false).2)
  | 91 :: rest => classLoop type nocase byte rest false
  | 92 :: escaped :: rest => (sameByte type nocase escaped byte, rest)
  | single :: rest => (sameByte type nocase single byte, rest)
  | [] => (false, [])

def afterStars (pattern : List UInt8) : List UInt8 := pattern.dropWhile (· = 42)

/-- The loop of a star over the rests of the string. The variable `skipLongerMatches` is set at its end. -/
def starLoop (attempt : List UInt8 → Bool → Bool × Bool) : List UInt8 → Bool → Bool × Bool
  | [], skip => (false, skip || sets)
  | byte :: string, skip =>
    let tried := attempt (byte :: string) skip
    if tried.1 then (true, tried.2) else if tried.2 then (false, tried.2) else starLoop attempt string tried.2

theorem classLoop_suffix (byte : UInt8) (pattern : List UInt8) (found : Bool) :
    (classLoop type nocase byte pattern found).2 <:+ pattern := by
  fun_induction classLoop type nocase byte pattern found
  case case3 => exact List.suffix_rfl
  all_goals grind [List.suffix_cons_iff]

/-- Every case of the switch moves forward in the pattern. -/
theorem element_suffix (byte : UInt8) (pattern : List UInt8) :
    (element type nocase byte pattern).2 <:+ pattern.tail := by
  have inner := classLoop_suffix type nocase byte
  fun_cases element type nocase byte pattern
  all_goals grind [List.suffix_cons_iff]

/-- The result and `skipLongerMatches`. The flag is never set if `sets` is false. The check of the nesting is repeated
at each iteration, which keeps it. -/
def stringmatchlenImpl (nesting : Nat) (pattern string : List UInt8) (skip : Bool) : Bool × Bool :=
  if nesting > 1000 then (false, skip)
  else
    match pattern, string with
    | [], string => (string.isEmpty, skip)
    | _ :: _, [] => (false, skip)
    | first :: rest, byte :: string =>
      if first = 42 then
        if afterStars rest = [] then (true, skip)
        else starLoop sets (stringmatchlenImpl (nesting + 1) (afterStars rest)) (byte :: string) skip
      else if (element type nocase byte (first :: rest)).1 = false then (false, skip)
      else if string = [] then (afterStars (element type nocase byte (first :: rest)).2 = [], skip)
      else stringmatchlenImpl nesting (element type nocase byte (first :: rest)).2 string skip
termination_by pattern.length
decreasing_by
  · exact Nat.lt_succ_of_le (List.dropWhile_suffix _).length_le
  · exact Nat.lt_succ_of_le (element_suffix type nocase byte (first :: rest)).length_le

def stringmatchlen (pattern string : List UInt8) : Bool :=
  (stringmatchlenImpl type nocase true 0 pattern string false).1

end Redis.Glob

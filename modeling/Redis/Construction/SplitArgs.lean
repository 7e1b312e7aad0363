/- This file embeds the functions of `sds.c` that quote a string and split a line into arguments. -/
import Redis.Construction.Ctype

namespace Redis.SplitArgs

abbrev Sds := List UInt8

/-- A hexadecimal digit of `%02x`. -/
def hexDigit (digit : Nat) : UInt8 := if digit < 10 then UInt8.ofNat (48 + digit) else UInt8.ofNat (87 + digit)

/-- What `sdscatrepr` appends for one character. -/
def reprChar (char : UInt8) : Sds :=
  if char = 92 ∨ char = 34 then [92, char]
  else if char = 10 then [92, 110]
  else if char = 13 then [92, 114]
  else if char = 9 then [92, 116]
  else if char = 7 then [92, 97]
  else if char = 8 then [92, 98]
  else if isprint char then [char]
  else [92, 120, hexDigit (char.toNat / 16), hexDigit (char.toNat % 16)]

def sdscatrepr (s p : Sds) : Sds := s ++ [34] ++ p.flatMap reprChar ++ [34]

def sdsneedsrepr (s : Sds) : Bool :=
  s.any fun char => char = 92 ∨ char = 34 ∨ char = 10 ∨ char = 13 ∨ char = 9 ∨ char = 7 ∨ char = 8 ∨
    !isprint char ∨ isspace char

def isHexDigit (char : UInt8) : Bool := (48 ≤ char ∧ char ≤ 57) ∨ (97 ≤ char ∧ char ≤ 102) ∨ (65 ≤ char ∧ char ≤ 70)

def hexDigitToInt (char : UInt8) : Nat :=
  if 48 ≤ char ∧ char ≤ 57 then char.toNat - 48
  else if 97 ≤ char ∧ char ≤ 102 then char.toNat - 87
  else if 65 ≤ char ∧ char ≤ 70 then char.toNat - 55
  else 0

/-- The character of an escape sequence. -/
def unescape (char : UInt8) : UInt8 :=
  if char = 110 then 10
  else if char = 114 then 13
  else if char = 116 then 9
  else if char = 98 then 8
  else if char = 97 then 7
  else char

inductive Quotes where
  | none
  | double
  | single
  deriving DecidableEq, Repr

/-- The character `*(p+index)`. The terminator stands behind the string. -/
def charAt (p : Sds) (index : Nat) : UInt8 := p.getD index 0

/-- A closing quote is followed by a space or by nothing. -/
def closes (p : Sds) : Bool := charAt p 1 = 0 ∨ isspace (charAt p 1)

/-- The loop over the characters of one token. The pointer has already moved past the first `skip` of them. The result is
the token and the string behind it. -/
def getToken (quotes : Quotes) (current : Sds) (skip : Nat) : Sds → Option (Sds × Sds)
  | [] => if quotes = .none then some (current, []) else none
  | char :: rest =>
    match skip with
    | skip + 1 => getToken quotes current skip rest
    | 0 =>
      let p := char :: rest
      match quotes with
      | .double =>
        if char = 92 ∧ charAt p 1 = 120 ∧ isHexDigit (charAt p 2) ∧ isHexDigit (charAt p 3) then
          getToken .double
            (current ++ [UInt8.ofNat (hexDigitToInt (charAt p 2) * 16 + hexDigitToInt (charAt p 3))]) 3 rest
        else if char = 92 ∧ charAt p 1 ≠ 0 then getToken .double (current ++ [unescape (charAt p 1)]) 1 rest
        else if char = 34 then if closes p then some (current, rest) else none
        else if char = 0 then none
        else getToken .double (current ++ [char]) 0 rest
      | .single =>
        if char = 92 ∧ charAt p 1 = 39 then getToken .single (current ++ [39]) 1 rest
        else if char = 39 then if closes p then some (current, rest) else none
        else if char = 0 then none
        else getToken .single (current ++ [char]) 0 rest
      | .none =>
        if char = 0 then some (current, p)
        else if char = 32 ∨ char = 10 ∨ char = 13 ∨ char = 9 then some (current, rest)
        else if char = 34 then getToken .double current 0 rest
        else if char = 39 then getToken .single current 0 rest
        else getToken .none (current ++ [char]) 0 rest

/-- The loop over the tokens of a line. The pointer has already moved past the first `skip` characters. -/
def splitLoop (vector : List Sds) (skip : Nat) : Sds → Option (List Sds)
  | [] => some vector
  | char :: rest =>
    match skip with
    | skip + 1 => splitLoop vector skip rest
    | 0 =>
      if char = 0 then some vector
      else if isspace char then splitLoop vector 0 rest
      else
        match getToken .none [] 0 (char :: rest) with
        | some (current, behind) => splitLoop (vector ++ [current]) (rest.length - behind.length) rest
        | none => none

def sdssplitargs (line : Sds) : Option (List Sds) := splitLoop [] 0 line

end Redis.SplitArgs

import Mathlib.Tactic

namespace Redis

/- The character classes of the C locale. -/

def isspace (char : UInt8) : Bool := char = 32 ∨ (9 ≤ char ∧ char ≤ 13)

def isdigit (char : UInt8) : Bool := 48 ≤ char ∧ char ≤ 57

def isprint (char : UInt8) : Bool := 32 ≤ char ∧ char ≤ 126

def tolower (char : UInt8) : UInt8 := if 65 ≤ char ∧ char ≤ 90 then char + 32 else char

end Redis

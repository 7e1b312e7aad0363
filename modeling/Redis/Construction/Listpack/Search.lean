/-
This file embeds the functions of `listpack.c` that read values, search, and estimate sizes.
-/

import Redis.Construction.Listpack.Update

namespace Redis.Listpack
open Foundation

/-- The value at an element: the place of a string and its length, or an integer. -/
inductive LpValue where
  | string (start count : Nat)
  | integer (value : Int)
  deriving DecidableEq, Repr

variable (lp : Memory)

/-- The function `lpGetWithSize` without an integer buffer. An unknown first byte leaves
`*entry_size` as it is. -/
def lpGetWithSize (p entrySize : Nat) : Checked (LpValue × Nat) := do
  let byte ← readCell lp p
  match lpEncodingOf byte with
  | .uint7 => return (.integer (lpIntegerValue (byte &&& 0x7F).toNat uint64Max 0), 2)
  | .str6 =>
    let count := (byte &&& 0x3F).toNat
    return (.string (p + 1) count, 1 + count + (lpEncodeBacklen (count + 1)).length)
  | .int13 =>
    let uval := (byte &&& 0x1F).toNat * 256 + (← readCell lp (p + 1)).toNat
    return (.integer (lpIntegerValue uval (2 ^ 12) 8191), 3)
  | .int16 =>
    let uval := leValue (← readBytes lp (p + 1) 2)
    return (.integer (lpIntegerValue uval (2 ^ 15) (2 ^ 16 - 1)), 4)
  | .int24 =>
    let uval := leValue (← readBytes lp (p + 1) 3)
    return (.integer (lpIntegerValue uval (2 ^ 23) (2 ^ 24 - 1)), 5)
  | .int32 =>
    let uval := leValue (← readBytes lp (p + 1) 4)
    return (.integer (lpIntegerValue uval (2 ^ 31) uint32Max), 6)
  | .int64 =>
    let uval := leValue (← readBytes lp (p + 1) 8)
    return (.integer (lpIntegerValue uval (2 ^ 63) uint64Max), 10)
  | .str12 =>
    let count := (byte &&& 0xF).toNat * 256 + (← readCell lp (p + 1)).toNat
    return (.string (p + 2) count, 2 + count + (lpEncodeBacklen (count + 2)).length)
  | .str32 =>
    let count := leValue (← readBytes lp (p + 1) 4)
    return (.string (p + 5) count, 5 + count + (lpEncodeBacklen (count + 5)).length)
  | .eof | .invalid => return (.integer (lpIntegerValue (12345678900000000 + byte.toNat) uint64Max 0), entrySize)

/-- The element that a caller sees after `lpGetValue`. -/
inductive LpEntry where
  | string (s : List UInt8)
  | integer (value : Int)
  deriving DecidableEq, Repr

/-- The caller reads the string that `lpGetValue` points to. -/
def lpGetValue (p : Nat) : Checked LpEntry := do
  match (← lpGetWithSize lp p 0).1 with
  | .string start count => return .string (← readBytes lp start count)
  | .integer value => return .integer value

/-- The comparison of one element in `lpFind`. The source parses the sought string once. -/
def findMatches (lp s : List UInt8) (bytes p size : Nat) : LpValue → Checked Bool
  | .string start count => do
      require .lpFind (p ≥ lpHdrSize ∧ p + size < bytes)
      if s.length = count then return decide ((← readBytes lp start count) = s) else return false
  | .integer value => return decide (s.length < 32 ∧ s.length ≠ 0 ∧ lpStringToInt64 s = some value)

/-- The check of the next position in `lpFind`. -/
def findCheck (bytes p : Nat) : Checked Unit :=
  if p + 8 ≥ bytes then lpAssertValidEntry lp bytes p else require .lpFind (p ≥ lpHdrSize ∧ p < bytes)

def findLoop (lp s : List UInt8) (bytes skip : Nat) : Nat → Nat → Nat → Nat → Checked (Option Nat)
  | 0, _, _, _ => .error .outOfFuel
  | fuel + 1, p, 0, entrySize => do
      let (value, size) ← lpGetWithSize lp p entrySize
      if ← findMatches lp s bytes p size value then return some p
      findCheck lp bytes (p + size)
      if (← readCell lp (p + size)) = lpEof then return none
      findLoop lp s bytes skip fuel (p + size) skip size
  | fuel + 1, p, skipcnt + 1, entrySize => do
      let next ← lpSkip lp p
      findCheck lp bytes next
      if (← readCell lp next) = lpEof then return none
      findLoop lp s bytes skip fuel next skipcnt entrySize

/-- The length argument is a `uint32_t`. -/
def lpFind (p : Nat) (s : List UInt8) (skip : Nat) : Checked (Option Nat) := do
  findLoop lp (s.take (s.length % 2 ^ 32)) (← lpBytes lp) skip (lp.length + 1) p 0 123456789

def listpackMaxSafetySize : Nat := 2 ^ 30

/-- The first argument is `none` for `NULL`. -/
def lpSafeToAdd (lp : Option Memory) (add : Nat) : Checked Bool := do
  let len ← (match lp with
    | some lp => lpGetTotalBytes lp
    | none => return 0)
  return decide (len + add ≤ listpackMaxSafetySize)

def lpEstimateBytesRepeatedInteger (lval : Int) (rep : Nat) : Nat :=
  let enclen := (lpEncodeIntegerGetType lval).length
  lpHdrSize + (enclen + (lpEncodeBacklen enclen).length) * rep + 1

def lpAppendInteger (lval : Int) : Checked (Option Memory) := do
  let eofptr := (← lpGetTotalBytes lp) - 1
  return (← lpInsertInteger lp lval eofptr .before).map Prod.fst

/-- The result of `rand()` is at most this value. -/
def randMax : Nat := 2 ^ 31 - 1

/-- The loop of `lpNextRandom` for all elements. Each element takes one random number, and the
two quotients are compared exactly. -/
def nextRandomLoop (lp : Memory) (rand : Nat → Nat) (remaining : Nat) : Nat → Nat → Option Nat → Checked (Option Nat)
  | 0, _, _ => .ok none
  | _ + 1, _, none => .ok none
  | available + 1, i, some p => do
      if rand i % (randMax + 1) * (available + 1) ≤ remaining * randMax then return some p
      nextRandomLoop lp rand remaining available (i + 1) (← lpNext lp p)

/-- The pointer to a random element, and the listpack with the header that `lpLength` updates. -/
def lpNextRandom (rand : Nat → Nat) (p : Option Nat) (remaining : Nat) : Checked (Option Nat × Memory) := do
  let (total, lp) ← lpLength lp
  return (← nextRandomLoop lp rand remaining total 0 p, lp)

/-- A listpack that outgrows its size limit is `NULL` afterwards. -/
def nonNull (lp : Checked (Option Memory)) : Checked Memory := do
  match ← lp with
  | some lp => return lp
  | none => throw .nullPointer

end Redis.Listpack

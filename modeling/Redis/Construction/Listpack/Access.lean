/-
This file embeds the functions of `listpack.c` that validate a listpack and walk through it.
A pointer into the listpack is an offset from its start.
-/

import Redis.Construction.Listpack.Encoding

namespace Redis.Listpack
open Foundation

/-- The macro `OUT_OF_RANGE` of `lpValidateNext`. -/
def outOfRange (lpbytes p : Nat) : Prop := p < lpHdrSize ∨ p ≥ lpbytes

instance (lpbytes p : Nat) : Decidable (outOfRange lpbytes p) := inferInstanceAs (Decidable (_ ∨ _))

variable (lp : Memory)

/-- The result is `none` for an invalid entry. Otherwise it holds the advanced pointer,
which is `NULL` at the end of the listpack. -/
def lpValidateNext (p lpbytes : Nat) : Checked (Option (Option Nat)) := do
  if outOfRange lpbytes p then return none
  let byte ← readCell lp p
  if byte = lpEof then return some none
  let lenbytes := lpCurrentEncodedSizeBytes byte
  if lenbytes = 0 then return none
  if outOfRange lpbytes (p + lenbytes) then return none
  let size ← lpCurrentEncodedSizeUnsafe lp p
  let encodedBacklen := (lpEncodeBacklen size).length
  let entrylen := size + encodedBacklen
  if outOfRange lpbytes (p + entrylen) then return none
  let prevlen ← lpDecodeBacklen lp (p + entrylen - 1)
  if (prevlen + encodedBacklen) % 2 ^ 64 ≠ entrylen then return none
  return some (some (p + entrylen))

def lpAssertValidEntry (lpbytes p : Nat) : Checked Unit := do
  require .lpAssertValidEntry ((← lpValidateNext lp p lpbytes).isSome)

def lpNext (p : Nat) : Checked (Option Nat) := do
  let p ← lpSkip lp p
  if (← readCell lp p) = lpEof then return none
  lpAssertValidEntry lp (← lpBytes lp) p
  return some p

/-- A pointer that moves before the start of the listpack fails the range check of
`lpAssertValidEntry`. -/
def lpPrev (p : Nat) : Checked (Option Nat) := do
  if p = lpHdrSize then return none
  if p = 0 then throw .outOfBounds
  let prevlen ← lpDecodeBacklen lp (p - 1)
  let prevlen := (prevlen + (lpEncodeBacklen prevlen).length) % 2 ^ 64
  require .lpAssertValidEntry (prevlen ≤ p)
  lpAssertValidEntry lp (← lpBytes lp) (p - prevlen)
  return some (p - prevlen)

def lpFirst : Checked (Option Nat) := do
  if (← readCell lp lpHdrSize) = lpEof then return none
  lpAssertValidEntry lp (← lpBytes lp) lpHdrSize
  return some lpHdrSize

def lpLast : Checked (Option Nat) := do
  lpPrev lp ((← lpGetTotalBytes lp) - 1)

/-- The scan of `lpLength` visits every element. -/
def countLoop (lp : Memory) : Nat → Option Nat → Nat → Checked Nat
  | _, none, count => .ok count
  | 0, some _, _ => .error .outOfFuel
  | fuel + 1, some p, count => do countLoop lp fuel (← lpNext lp p) ((count + 1) % 2 ^ 32)

/-- The count, and the listpack with its updated header. -/
def lpLength : Checked (Nat × Memory) := do
  let numele ← lpGetNumElements lp
  if numele ≠ lpHdrNumeleUnknown then return (numele, lp)
  let count ← countLoop lp lp.length (← lpFirst lp) 0
  let lp ← (if count < lpHdrNumeleUnknown then lpSetNumElements lp count else .ok lp)
  return (count, lp)

/-- The signed value of an integer encoding. The last case is an unknown first byte. -/
def lpIntegerValue (uval negstart negmax : Nat) : Int :=
  if uval ≥ negstart then -((negmax - uval : Nat) : Int) - 1 else uval

def lpGet (p : Nat) : Checked (List UInt8) := do
  let byte ← readCell lp p
  match lpEncodingOf byte with
  | .uint7 => ll2string lpIntbufSize (lpIntegerValue (byte &&& 0x7F).toNat uint64Max 0)
  | .str6 => readBytes lp (p + 1) (byte &&& 0x3F).toNat
  | .int13 =>
    let uval := (byte &&& 0x1F).toNat * 256 + (← readCell lp (p + 1)).toNat
    ll2string lpIntbufSize (lpIntegerValue uval (2 ^ 12) 8191)
  | .int16 =>
    let uval := leValue (← readBytes lp (p + 1) 2)
    ll2string lpIntbufSize (lpIntegerValue uval (2 ^ 15) (2 ^ 16 - 1))
  | .int24 =>
    let uval := leValue (← readBytes lp (p + 1) 3)
    ll2string lpIntbufSize (lpIntegerValue uval (2 ^ 23) (2 ^ 24 - 1))
  | .int32 =>
    let uval := leValue (← readBytes lp (p + 1) 4)
    ll2string lpIntbufSize (lpIntegerValue uval (2 ^ 31) uint32Max)
  | .int64 =>
    let uval := leValue (← readBytes lp (p + 1) 8)
    ll2string lpIntbufSize (lpIntegerValue uval (2 ^ 63) uint64Max)
  | .str12 =>
    let count := (byte &&& 0xF).toNat * 256 + (← readCell lp (p + 1)).toNat
    readBytes lp (p + 2) count
  | .str32 =>
    let count := leValue (← readBytes lp (p + 1) 4)
    readBytes lp (p + 5) count
  | .eof | .invalid => ll2string lpIntbufSize (lpIntegerValue (12345678900000000 + byte.toNat) uint64Max 0)

/-- The seek loops step while elements remain. -/
def seekLoop (step : Nat → Checked (Option Nat)) : Nat → Option Nat → Checked (Option Nat)
  | 0, ele => .ok ele
  | _ + 1, none => .ok none
  | count + 1, some ele => do seekLoop step count (← step ele)

def lpSeek (index : Int) : Checked (Option Nat) := do
  let numele ← lpGetNumElements lp
  if numele ≠ lpHdrNumeleUnknown then
    let index := if index < 0 then numele + index else index
    if index < 0 ∨ index ≥ numele then return none
    if index > numele / 2 then seekLoop (lpPrev lp) (numele - index - 1).toNat (← lpLast lp)
    else seekLoop (lpNext lp) index.toNat (← lpFirst lp)
  else if index < 0 then seekLoop (lpPrev lp) (-index - 1).toNat (← lpLast lp)
  else seekLoop (lpNext lp) index.toNat (← lpFirst lp)

def validateLoop (lp : Memory) (bytes : Nat) : Nat → Option Nat → Nat → Checked (Option (Option Nat × Nat))
  | fuel, p, count =>
    match p with
    | none => .ok (some (none, count))
    | some p => do
        if (← readCell lp p) = lpEof then return some (some p, count)
        match fuel with
        | 0 => throw .outOfFuel
        | fuel + 1 =>
          match ← lpValidateNext lp p bytes with
          | none => return none
          | some next => validateLoop lp bytes fuel next ((count + 1) % 2 ^ 32)

/-- The validation without an entry callback. -/
def lpValidateIntegrity (size : Nat) (deep : Bool) : Checked Bool := do
  if size < lpHdrSize + 1 then return false
  let bytes ← lpGetTotalBytes lp
  if bytes ≠ size then return false
  if (← readCell lp (size - 1)) ≠ lpEof then return false
  if ¬ deep then return true
  let numele ← lpGetNumElements lp
  match ← validateLoop lp bytes size (some lpHdrSize) 0 with
  | none => return false
  | some (p, count) =>
    if p ≠ some (size - 1) then return false
    if numele ≠ lpHdrNumeleUnknown ∧ numele ≠ count then return false
    return true

/-- A caller that walks with a step function collects the offsets of the elements. -/
def walkLoop (step : Nat → Checked (Option Nat)) : Nat → Option Nat → Checked (List Nat)
  | _, none => .ok []
  | 0, some _ => .error .outOfFuel
  | fuel + 1, some p => return p :: (← walkLoop step fuel (← step p))

def walkForward : Checked (List Nat) := do
  walkLoop (lpNext lp) lp.length (← lpFirst lp)

def walkBackward : Checked (List Nat) := do
  walkLoop (lpPrev lp) lp.length (← lpLast lp)

def readElements : Checked (List (List UInt8)) := do
  (← walkForward lp).mapM (lpGet lp)

end Redis.Listpack

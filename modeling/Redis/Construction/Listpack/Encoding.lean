/-
This file embeds the element encodings of `listpack.c`.
An element is an encoded integer or string that its backward length follows.
-/

import Redis.Construction.Decimal

namespace Redis.Listpack
open Foundation

def lpHdrSize : Nat := 6

def lpHdrNumeleUnknown : Nat := 2 ^ 16 - 1

def lpEof : UInt8 := 0xFF

def uint32Max : Nat := 2 ^ 32 - 1

def uint64Max : Nat := 2 ^ 64 - 1

def longStrSize : Nat := 21

def lpIntbufSize : Nat := 21

/-- The encodings that the macros `LP_ENCODING_IS_*` recognise by the first byte. -/
inductive LpEncoding where
  | uint7
  | str6
  | int13
  | int16
  | int24
  | int32
  | int64
  | str12
  | str32
  | eof
  | invalid
  deriving DecidableEq, Repr

def lpEncodingOf (byte : UInt8) : LpEncoding :=
  if byte &&& 0x80 = 0 then .uint7
  else if byte &&& 0xC0 = 0x80 then .str6
  else if byte &&& 0xE0 = 0xC0 then .int13
  else if byte = 0xF1 then .int16
  else if byte = 0xF2 then .int24
  else if byte = 0xF3 then .int32
  else if byte = 0xF4 then .int64
  else if byte &&& 0xF0 = 0xE0 then .str12
  else if byte = 0xF0 then .str32
  else if byte = lpEof then .eof
  else .invalid

/-- The digit loop of `lpStringToInt64` stops at an overflow or at another character. -/
def digitLoop : Nat → List UInt8 → Option Nat
  | v, [] => some v
  | v, char :: chars =>
    if 48 ≤ char ∧ char ≤ 57 then
      if v > uint64Max / 10 then none
      else if v * 10 > uint64Max - (char.toNat - 48) then none
      else digitLoop (v * 10 + (char.toNat - 48)) chars
    else none

/-- The first digit is not zero. -/
def parseDigits : List UInt8 → Option Nat
  | [] => none
  | char :: chars => if 49 ≤ char ∧ char ≤ 57 then digitLoop (char.toNat - 48) chars else none

def lpStringToInt64 (s : List UInt8) : Option Int :=
  if s.length = 0 ∨ s.length ≥ longStrSize then none
  else if s = [48] then some 0
  else if s.head? = some 45 then
    match parseDigits s.tail with
    | none => none
    | some v => if v > 2 ^ 63 then none else some (-v)
  else
    match parseDigits s with
    | none => none
    | some v => if v > 2 ^ 63 - 1 then none else some v

/-- A negative value becomes its two's complement. -/
def wrapNegative (bits : Nat) (v : Int) : Nat := (if v < 0 then 2 ^ bits + v else v).toNat

def lpEncodeIntegerGetType (v : Int) : List UInt8 :=
  if 0 ≤ v ∧ v ≤ 127 then [UInt8.ofNat v.toNat]
  else if -4096 ≤ v ∧ v ≤ 4095 then
    [UInt8.ofNat (wrapNegative 13 v / 256) ||| 0xC0, UInt8.ofNat (wrapNegative 13 v)]
  else if -32768 ≤ v ∧ v ≤ 32767 then 0xF1 :: leBytes 2 (wrapNegative 16 v)
  else if -8388608 ≤ v ∧ v ≤ 8388607 then 0xF2 :: leBytes 3 (wrapNegative 24 v)
  else if -2147483648 ≤ v ∧ v ≤ 2147483647 then 0xF3 :: leBytes 4 (wrapNegative 32 v)
  else 0xF4 :: leBytes 8 (wrapNegative 64 v)

/-- The integer encoding of a string, if it has one, and the encoded length. -/
def lpEncodeGetType (ele : List UInt8) : Option (List UInt8) × Nat :=
  match lpStringToInt64 ele with
  | some v => (some (lpEncodeIntegerGetType v), (lpEncodeIntegerGetType v).length)
  | none =>
    (none, if ele.length < 64 then 1 + ele.length
      else if ele.length < 4096 then 2 + ele.length
      else 5 + ele.length)

def lpEncodeString (s : List UInt8) : List UInt8 :=
  if s.length < 64 then (UInt8.ofNat s.length ||| 0x80) :: s
  else if s.length < 4096 then
    (UInt8.ofNat (s.length / 256) ||| 0xE0) :: UInt8.ofNat s.length :: s
  else 0xF0 :: leBytes 4 s.length ++ s

/-- One byte of the backward length with its continuation bit. -/
def backlenByte (l shift : Nat) : UInt8 := UInt8.ofNat (l / 2 ^ shift % 128) ||| 128

def lpEncodeBacklen (l : Nat) : List UInt8 :=
  if l ≤ 127 then [UInt8.ofNat l]
  else if l < 16383 then [UInt8.ofNat (l / 2 ^ 7), backlenByte l 0]
  else if l < 2097151 then [UInt8.ofNat (l / 2 ^ 14), backlenByte l 7, backlenByte l 0]
  else if l < 268435455 then
    [UInt8.ofNat (l / 2 ^ 21), backlenByte l 14, backlenByte l 7, backlenByte l 0]
  else [UInt8.ofNat (l / 2 ^ 28), backlenByte l 21, backlenByte l 14, backlenByte l 7, backlenByte l 0]

/-- The loop of `lpDecodeBacklen` reads backward and gives up after the last shift. -/
def decodeBacklenLoop (lp : Memory) : List Nat → Nat → Nat → Checked Nat
  | [], _, _ => .ok uint64Max
  | shift :: shifts, p, val => do
      let byte ← readCell lp p
      let val := val ||| ((byte &&& 127).toNat <<< shift)
      if byte &&& 128 = 0 then return val
      if shifts = [] then return uint64Max
      if p = 0 then throw .outOfBounds
      decodeBacklenLoop lp shifts (p - 1) val

variable (lp : Memory) (p : Nat)

def lpDecodeBacklen : Checked Nat := decodeBacklenLoop lp [0, 7, 14, 21, 28] p 0

/-- The result of `lpCurrentEncodedSizeUnsafe` is a `uint32_t`. -/
def lpCurrentEncodedSizeUnsafe : Checked Nat := do
  let byte ← readCell lp p
  match lpEncodingOf byte with
  | .uint7 => return 1
  | .str6 => return 1 + (byte &&& 0x3F).toNat
  | .int13 => return 2
  | .int16 => return 3
  | .int24 => return 4
  | .int32 => return 5
  | .int64 => return 9
  | .str12 => return 2 + ((byte &&& 0xF).toNat * 256 + (← readCell lp (p + 1)).toNat)
  | .str32 => return (5 + leValue (← readBytes lp (p + 1) 4)) % 2 ^ 32
  | .eof => return 1
  | .invalid => return 0

def lpCurrentEncodedSizeBytes (byte : UInt8) : Nat :=
  match lpEncodingOf byte with
  | .str12 => 2
  | .str32 => 5
  | .invalid => 0
  | _ => 1

def lpSkip : Checked Nat := do
  let entrylen ← lpCurrentEncodedSizeUnsafe lp p
  return p + (entrylen + (lpEncodeBacklen entrylen).length)

def lpGetTotalBytes : Checked Nat := do return leValue (← readBytes lp 0 4)

def lpGetNumElements : Checked Nat := do return leValue (← readBytes lp 4 2)

def lpSetTotalBytes (v : Nat) : Checked Memory := writeBytes lp 0 (leBytes 4 v)

def lpSetNumElements (v : Nat) : Checked Memory := writeBytes lp 4 (leBytes 2 v)

def lpBytes : Checked Nat := lpGetTotalBytes lp

end Redis.Listpack

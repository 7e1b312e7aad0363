/-
This file embeds the decimal conversions of `util.c` that the listpack uses.
-/

import Redis.Construction.Memory

namespace Redis

/-- The comparisons of `digits10` below the recursive call. -/
def smallDigits10 (v : Nat) : Nat :=
  if v < 10 then 1
  else if v < 100 then 2
  else if v < 1000 then 3
  else if v < 100000000 then
    if v < 1000000 then
      if v < 10000 then 4 else if v ≥ 100000 then 6 else 5
    else if v ≥ 10000000 then 8 else 7
  else if v < 10000000000 then if v ≥ 1000000000 then 10 else 9
  else if v ≥ 100000000000 then 12 else 11

/-- The number of decimal digits. A `uint64_t` value needs at most one recursive call,
whose argument is below the bound of the comparisons. -/
def digits10 (v : Nat) : Nat := if v < 1000000000000 then smallDigits10 v else 12 + smallDigits10 (v / 1000000000000)

/-- The table `digits` holds the two digits of each number below one hundred. -/
def digitTable : List UInt8 :=
  (List.range 100).flatMap fun number => [48 + UInt8.ofNat (number / 10), 48 + UInt8.ofNat (number % 10)]

def writeCell (cells : List UInt8) (index : Nat) (value : UInt8) : Checked (List UInt8) :=
  writeBytes cells index [value]

variable (dst : List UInt8)

/-- Two digits go to the positions `next - 1` and `next`. -/
def writePair (next value : Nat) : Checked (List UInt8) := do
  let dst ← writeCell dst next (← readCell digitTable (value * 2 + 1))
  writeCell dst (next - 1) (← readCell digitTable (value * 2))

def pairLoop : Nat → List UInt8 → Nat → Nat → Checked (List UInt8 × Nat × Nat)
  | fuel, dst, value, next =>
    if value ≥ 100 then
      match fuel with
      | 0 => .error .outOfFuel
      | fuel + 1 => do
          let dst ← writePair dst next (value % 100)
          pairLoop fuel dst (value / 100) (next - 2)
    else .ok (dst, value, next)

/-- The label `err` of both conversions forces a terminator and returns zero. -/
def conversionError : Checked (List UInt8 × Nat) := do
  if dst.length > 0 then return (← writeCell dst 0 0, 0)
  return (dst, 0)

/-- The function `ull2string` returns the buffer and the length of the string. -/
def ull2string (value : Nat) : Checked (List UInt8 × Nat) := do
  let length := digits10 value
  if length ≥ dst.length then conversionError dst
  else
    let next := length - 1
    let dst ← writeCell dst (next + 1) 0
    let (dst, value, next) ← pairLoop length dst value next
    if value < 10 then return (← writeCell dst next (48 + UInt8.ofNat value), length)
    return (← writePair dst next value, length)

/-- The function `ll2string` on the buffer `dst`, with the sign in its first byte. -/
def ll2stringInto (svalue : Int) : Checked (List UInt8 × Nat) := do
  if svalue < 0 then
    if dst.length < 2 then conversionError dst
    else
      let dst ← writeCell dst 0 45
      let written ← ull2string (dst.drop 1) (-svalue).toNat
      return (dst.take 1 ++ written.1, if written.2 = 0 then 0 else written.2 + 1)
  else ull2string dst svalue.toNat

def ll2string (dstlen : Nat) (svalue : Int) : Checked (List UInt8) := do
  let written ← ll2stringInto (List.replicate dstlen 0) svalue
  return written.1.take written.2

end Redis

/-
This file embeds the sorted integer arrays of `intset.c`.
The contents are bytes, and each function reads them at the width of an encoding.
-/

import Redis.Construction.Memory

namespace Redis.IntegerSet
open Foundation

inductive Encoding where
  | int16
  | int32
  | int64
  deriving DecidableEq, Repr

/-- Each constant is the size of one element. -/
def Encoding.size : Encoding → Nat
  | .int16 => 2
  | .int32 => 4
  | .int64 => 8

structure Intset where
  encoding : Encoding
  length : Nat
  contents : Memory
  deriving DecidableEq, Repr

def intsetValueEncoding (v : Int) : Encoding :=
  if v < -2 ^ 31 ∨ v > 2 ^ 31 - 1 then .int64
  else if v < -2 ^ 15 ∨ v > 2 ^ 15 - 1 then .int32
  else .int16

variable (is : Intset) (value : Int)

def intsetGetEncoded (pos : Nat) (enc : Encoding) : Checked Int := do
  return twosValue (← readBytes is.contents (pos * enc.size) enc.size)

def intsetGet (pos : Nat) : Checked Int := intsetGetEncoded is pos is.encoding

def intsetSet (pos : Nat) (value : Int) : Checked Intset := do
  let contents ← writeBytes is.contents (pos * is.encoding.size) (twosBytes is.encoding.size value)
  return { is with contents := contents }

def intsetNew : Intset := ⟨.int16, 0, []⟩

/-- The size of `struct intset` without its contents. -/
def headerSize : Nat := 8

/-- The length is a `uint32_t`, and the byte count a `uint64_t`. -/
def intsetResize (len : Nat) : Checked Intset := do
  let size := len % 2 ^ 32 * is.encoding.size
  require .intsetResize (size ≤ 2 ^ 64 - 1 - headerSize)
  return { is with contents := zrealloc is.contents size }

/-- The binary search loop returns the final `min`, `mid`, and `cur`. The midpoint is
computed on `unsigned int` values. -/
def searchLoop (is : Intset) (value : Int) : Nat → Int → Int → Int → Int → Checked (Int × Int × Int)
  | fuel, min, max, mid, cur =>
    if max ≥ min then
      match fuel with
      | 0 => .error .outOfFuel
      | fuel + 1 => do
          let mid := (min % 2 ^ 32 + max % 2 ^ 32) % 2 ^ 32 / 2
          let cur ← intsetGet is mid.toNat
          if value > cur then searchLoop is value fuel (mid + 1) max mid cur
          else if value < cur then searchLoop is value fuel min (mid - 1) mid cur
          else return (min, mid, cur)
    else .ok (min, mid, cur)

/-- The search returns whether the value is present and its position. -/
def intsetSearch : Checked (Bool × Nat) := do
  if is.length = 0 then return (false, 0)
  let max : Int := is.length - 1
  if value > (← intsetGet is max.toNat) then return (false, is.length)
  if value < (← intsetGet is 0) then return (false, 0)
  let (min, mid, cur) ← searchLoop is value is.length 0 max (-1) (-1)
  if value = cur then return (true, mid.toNat) else return (false, min.toNat)

def upgradeLoop (curenc : Encoding) (shift : Nat) : Nat → Intset → Checked Intset
  | 0, is => .ok is
  | length + 1, is => do
      let is ← intsetSet is (length + shift) (← intsetGetEncoded is length curenc)
      upgradeLoop curenc shift length is

def intsetUpgradeAndAdd : Checked Intset := do
  let curenc := is.encoding
  let shift := if value < 0 then 1 else 0
  let resized ← intsetResize { is with encoding := intsetValueEncoding value } (is.length + 1)
  let moved ← upgradeLoop curenc shift is.length resized
  let added ← (if value < 0 then intsetSet moved 0 value else intsetSet moved is.length value)
  return { added with length := (is.length + 1) % 2 ^ 32 }

/-- The byte count of the moved tail is a `uint32_t`. -/
def intsetMoveTail (source target : Nat) : Checked Intset := do
  let bytes := (is.length - source) * is.encoding.size % 2 ^ 32
  let contents ← memmove is.contents (target * is.encoding.size) (source * is.encoding.size) bytes
  return { is with contents := contents }

/-- The flag is `*success`. -/
def intsetAdd : Checked (Intset × Bool) := do
  if (intsetValueEncoding value).size > is.encoding.size then
    return (← intsetUpgradeAndAdd is value, true)
  let (found, pos) ← intsetSearch is value
  if found then return (is, false)
  let is ← intsetResize is (is.length + 1)
  let is ← (if pos < is.length then intsetMoveTail is pos (pos + 1) else .ok is)
  let is ← intsetSet is pos value
  return ({ is with length := (is.length + 1) % 2 ^ 32 }, true)

/-- The flag is `*success`. -/
def intsetRemove : Checked (Intset × Bool) := do
  if (intsetValueEncoding value).size > is.encoding.size then return (is, false)
  let (found, pos) ← intsetSearch is value
  if ¬ found then return (is, false)
  let len := is.length
  let is ← (if pos < len - 1 then intsetMoveTail is (pos + 1) pos else .ok is)
  let is ← intsetResize is (len - 1)
  return ({ is with length := len - 1 }, true)

def intsetFind : Checked Bool := do
  if (intsetValueEncoding value).size > is.encoding.size then return false
  return (← intsetSearch is value).1

def intsetBlobLen : Nat := headerSize + is.length * is.encoding.size

def blob : Memory := leBytes 4 is.encoding.size ++ leBytes 4 is.length ++ is.contents

def orderLoop (is : Intset) : Nat → Nat → Int → Checked Bool
  | 0, _, _ => .ok true
  | remaining + 1, i, prev => do
      let cur ← intsetGet is i
      if cur ≤ prev then return false
      orderLoop is remaining (i + 1) cur

/-- The encoding that a header field stands for. -/
def encodingOf (field : Nat) : Option Encoding :=
  if field = Encoding.int64.size then some .int64
  else if field = Encoding.int32.size then some .int32
  else if field = Encoding.int16.size then some .int16
  else none

def intsetValidateIntegrity (p : Memory) (size : Nat) (deep : Bool) : Checked Bool := do
  if size < headerSize then return false
  match encodingOf (leValue (← readBytes p 0 4)) with
  | none => return false
  | some encoding =>
    let count := leValue (← readBytes p 4 4)
    if headerSize + count * encoding.size ≠ size then return false
    if count = 0 then return false
    if ¬ deep then return true
    let is : Intset := ⟨encoding, count, p.drop headerSize⟩
    orderLoop is (count - 1) 1 (← intsetGet is 0)

/-- The operations on `int64_t` values. -/
inductive IntsetOp where
  | add (value : Int64)
  | remove (value : Int64)
  | find (value : Int64)
  deriving DecidableEq

def intsetStep : IntsetOp → Checked (Intset × Bool)
  | .add value => intsetAdd is value.toInt
  | .remove value => intsetRemove is value.toInt
  | .find value => return (is, ← intsetFind is value.toInt)

end Redis.IntegerSet

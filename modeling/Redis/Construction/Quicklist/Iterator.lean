/-
This file embeds the iterators of `quicklist.c`.
-/

import Redis.Construction.Quicklist.Edit

namespace Redis.NodeList
open Foundation Listpack

/-- The directions `AL_START_HEAD` and `AL_START_TAIL`. -/
inductive Direction where
  | head
  | tail
  deriving DecidableEq, Repr

/-- The pointer `zi` is an offset in the entry of the current node. -/
structure QuicklistIter where
  current : Option Nat
  zi : Option Nat
  offset : Int
  direction : Direction
  deriving DecidableEq, Repr

/-- An entry that `quicklistNext` has filled. Its value is the string of the element. -/
structure QuicklistEntry where
  node : Nat
  zi : Nat
  offset : Int
  value : List UInt8
  deriving DecidableEq, Repr

variable (setup : Setup)
variable (ql : Quicklist) (iter : QuicklistIter)

def quicklistGetIterator (direction : Direction) : QuicklistIter :=
  match direction with
  | .head => ⟨ql.head, none, 0, direction⟩
  | .tail => ⟨ql.tail, none, -1, direction⟩

/-- The loop of `quicklistGetIteratorAtIdx` returns the number of skipped nodes and `accum`. -/
def seekNode : List QuicklistNode → Nat → Nat → Nat → Option (Nat × Nat)
  | [], _, _, _ => none
  | node :: nodes, seekIndex, skipped, accum =>
    if accum + node.count > seekIndex then some (skipped, accum)
    else seekNode nodes seekIndex (skipped + 1) (accum + node.count)

def quicklistGetIteratorAtIdx (direction : Direction) (idx : Int) : Attempt (Option QuicklistIter) := do
  let forward : Bool := decide (idx ≥ 0)
  let index := if forward then idx.toNat else (-idx).toNat - 1
  if index ≥ ql.count then return none
  let other : Bool := decide (index > (ql.count - 1) / 2)
  let seekForward : Bool := forward != other
  let seekIndex := if other then ql.count - 1 - index else index
  match seekNode (if seekForward then ql.nodes else ql.nodes.reverse) seekIndex 0 0 with
  | none => return none
  | some (skipped, accum) =>
    let current := if seekForward then skipped else ql.nodes.length - 1 - skipped
    let node ← readNode ql current
    let accum : Int := if other then ql.count - node.count - accum else accum
    let iter := quicklistGetIterator ql direction
    return some { iter with
      current := some current, offset := if forward then index - accum else -index - 1 + accum }

/-- An iterator that has not passed a current node re-encodes it. -/
def quicklistReleaseIterator : Attempt Quicklist :=
  match iter.current with
  | some current => quicklistCompress setup ql current
  | none => return ql

def advance (node : QuicklistNode) (iter : QuicklistIter) : Attempt (Option Nat × Int) := do
  match iter.zi with
  | none =>
    if node.container = .plain then return (some 0, iter.offset)
    return (← memory (lpSeek node.entry iter.offset), iter.offset)
  | some zi =>
    if node.container = .plain then return (none, iter.offset)
    match iter.direction with
    | .head => return (← memory (lpNext node.entry zi), iter.offset + 1)
    | .tail => return (← memory (lpPrev node.entry zi), iter.offset - 1)

/-- The result has no entry when the iteration is complete. Each recursive call moves to
another node. -/
def quicklistNext : Nat → Quicklist → QuicklistIter → Attempt (Quicklist × QuicklistIter × Option QuicklistEntry)
  | fuel, ql, iter =>
    match iter.current with
    | none => .ok (ql, iter, none)
    | some current => do
        let ql ← (if iter.zi = none then quicklistDecompressNodeForUse setup ql current else return ql)
        let node ← readNode ql current
        let (zi, offset) ← advance node iter
        let iter := { iter with zi := zi, offset := offset }
        match zi with
        | some zi =>
          let value ← (if node.container = .plain then memory (readBytes node.entry 0 node.sz)
            else memory (lpGet node.entry zi))
          return (ql, iter, some ⟨current, zi, offset, value⟩)
        | none =>
          match fuel with
          | 0 => throw .outOfFuel
          | fuel + 1 => do
              let ql ← quicklistCompress setup ql current
              let iter := match iter.direction with
                | .head => { iter with current := ql.next current, offset := 0, zi := none }
                | .tail => { iter with current := prevIndex current, offset := -1, zi := none }
              quicklistNext fuel ql iter

/-- There are fewer recursive calls than nodes. -/
def nextEntry : Attempt (Quicklist × QuicklistIter × Option QuicklistEntry) :=
  quicklistNext setup ql.nodes.length ql iter

def quicklistGetIteratorEntryAtIdx (idx : Int) : Attempt (Quicklist × Option (QuicklistIter × QuicklistEntry)) := do
  match ← quicklistGetIteratorAtIdx ql .tail idx with
  | none => return (ql, none)
  | some iter =>
    match ← nextEntry setup ql iter with
    | (ql, iter, some entry) => return (ql, some (iter, entry))
    | (_, _, none) => throw (.assertion .quicklistGetIteratorEntryAtIdx)

end Redis.NodeList

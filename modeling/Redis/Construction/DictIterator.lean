/-
This file embeds the unsafe iterator and the random selection of `dict.c`.
-/

import Redis.Construction.Dict

namespace Redis.Dictionary
open Foundation
variable {K V : Type}

/-- The fields of an iterator. The saved next entry is the rest of the chain. -/
structure DictIterator (K V : Type) where
  table : Fin 2
  index : Int
  entry : Option (K × V)
  nextEntry : List (K × V)

def dictGetIterator : DictIterator K V := ⟨0, -1, none, []⟩

/-- The next bucket in the order of the iteration. The result is `none` after the last one. -/
def nextBucket (d : Dict K V) (iter : DictIterator K V) : Checked (Option (DictIterator K V)) := do
  let index := iter.index + 1
  if index < dicthtSize (d.tableAt iter.table).sizeExp then
    return some ⟨iter.table, index, none, ← readCell (d.tableAt iter.table).table index.toNat⟩
  if dictIsRehashing d ∧ iter.table = 0 then return some ⟨1, 0, none, ← readCell d.ht1.table 0⟩
  return none

def nextLoop (d : Dict K V) : Nat → DictIterator K V → Checked (Option ((K × V) × DictIterator K V))
  | 0, _ => .error .outOfFuel
  | fuel + 1, iter => do
      let reached ← (if iter.entry.isNone then nextBucket d iter else return some iter)
      match reached with
      | none => return none
      | some reached =>
        match reached.nextEntry with
        | [] => nextLoop d fuel { reached with entry := none }
        | entry :: rest => return some (entry, { reached with entry := some entry, nextEntry := rest })

def dictSlots (d : Dict K V) : Nat := dicthtSize d.ht0.sizeExp + dicthtSize d.ht1.sizeExp

/-- The next entry with the advanced iterator. The loop visits every bucket at most once. -/
def dictNext (d : Dict K V) (iter : DictIterator K V) : Checked (Option ((K × V) × DictIterator K V)) :=
  nextLoop d (dictSlots d + 2) iter

def hashtableMinFill : Nat := 10

def htNeedsResize (d : Dict K V) : Bool :=
  decide (dictSlots d > dictHtInitialSize ∧ dictSize d * 100 / dictSlots d < hashtableMinFill)

/-- The rehash work at the start of `dictGetSomeKeys`. -/
def rehashSteps (type : DictType K) (mode : DictResizeEnable) : Nat → Dict K V → Checked (Dict K V)
  | 0, d => .ok d
  | count + 1, d => do
      if dictIsRehashing d then rehashSteps type mode count (← dictRehashStep type mode d) else return d

def getfairNumEntries : Nat := 15

/-- The random numbers of one selection. They decide if `dictGetSomeKeys` finds no entry and
which entry is selected. -/
structure DictChoice where
  unlucky : Bool
  position : Nat
  deriving DecidableEq, Repr

/-- The function `dictGetFairRandomKey`. The loops that try random buckets are represented by
the position of the entry that they find, and the rehash steps are the ones of the source. -/
def dictGetFairRandomKey (type : DictType K) (mode : DictResizeEnable) (d : Dict K V) (choice : DictChoice) :
    Checked (Dict K V × Option (K × V)) := do
  let d ← rehashSteps type mode (min (dictSize d) getfairNumEntries) d
  let d ← (if choice.unlucky ∧ dictSize d ≠ 0 then dictRehashStep type mode d else return d)
  let entries := d.ht0.table.flatten ++ d.ht1.table.flatten
  return (d, entries[choice.position % entries.length]?)

end Redis.Dictionary

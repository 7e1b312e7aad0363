/-
This file defines the calls of a client of `quicklist.c`.
A client has at most one iterator. While it has one, it calls only the functions on this
iterator, and after an insertion or a replacement it only releases the iterator.
-/

import Redis.Construction.Quicklist.Update

namespace Redis.NodeList
open Foundation

/-- The entry of the client: not filled, filled by `quicklistNext`, or without a node. -/
inductive EntryStatus where
  | unset
  | filled (entry : QuicklistEntry)
  | exhausted
  deriving DecidableEq, Repr

inductive Client where
  | idle
  | iterating (iter : QuicklistIter) (status : EntryStatus)
  | spent (iter : QuicklistIter)
  deriving DecidableEq, Repr

structure ListState where
  ql : Quicklist
  client : Client
  deriving DecidableEq, Repr

inductive QuicklistOp where
  | pushHead (value : List UInt8)
  | pushTail (value : List UInt8)
  | push (value : List UInt8) (position : Direction)
  | pop (position : Direction)
  | appendListpack (zl : Memory)
  | appendPlainNode (data : List UInt8)
  | delRange (start count : Int)
  | replaceAtIndex (index : Int) (data : List UInt8)
  | dup
  | getIterator (direction : Direction)
  | getIteratorAtIdx (direction : Direction) (idx : Int)
  | next
  | insertBefore (value : List UInt8)
  | insertAfter (value : List UInt8)
  | replaceEntry (data : List UInt8)
  | delEntry
  | releaseIterator
  deriving DecidableEq, Repr

/-- The observable result of a call. A call that the client does not make is ignored. -/
inductive QuicklistOut where
  | done
  | flag (value : Bool)
  | element (value : Option (List UInt8))
  | ignored
  deriving DecidableEq, Repr

variable (setup : Setup)

/-- The calls without an iterator. A duplicate takes the place of the list. -/
def idleStep (ql : Quicklist) : QuicklistOp → Attempt (ListState × QuicklistOut)
  | .pushHead value => do
      let (ql, created) ← quicklistPushHead setup ql value
      return (⟨ql, .idle⟩, .flag created)
  | .pushTail value => do
      let (ql, created) ← quicklistPushTail setup ql value
      return (⟨ql, .idle⟩, .flag created)
  | .push value position => return (⟨← quicklistPush setup ql value position, .idle⟩, .done)
  | .pop position => do
      let (ql, value) ← quicklistPopCustom setup ql position
      return (⟨ql, .idle⟩, .element value)
  | .appendListpack zl => return (⟨← quicklistAppendListpack setup ql zl, .idle⟩, .done)
  | .appendPlainNode data => return (⟨← quicklistAppendPlainNode setup ql data, .idle⟩, .done)
  | .delRange start count => do
      let (ql, deleted) ← quicklistDelRange setup ql start count
      return (⟨ql, .idle⟩, .flag deleted)
  | .replaceAtIndex index data => do
      let (ql, replaced) ← quicklistReplaceAtIndex setup ql index data
      return (⟨ql, .idle⟩, .flag replaced)
  | .dup => return (⟨← quicklistDup setup ql, .idle⟩, .done)
  | .getIterator direction => return (⟨ql, .iterating (quicklistGetIterator ql direction) .unset⟩, .flag true)
  | .getIteratorAtIdx direction idx => do
      match ← quicklistGetIteratorAtIdx ql direction idx with
      | none => return (⟨ql, .idle⟩, .flag false)
      | some iter => return (⟨ql, .iterating iter .unset⟩, .flag true)
  | _ => return (⟨ql, .idle⟩, .ignored)

/-- An insertion needs a filled entry, or an entry without a node and an empty list. -/
def insertStep (ql : Quicklist) (iter : QuicklistIter) (status : EntryStatus) (value : List UInt8) (after : Bool) :
    Attempt (ListState × QuicklistOut) := do
  match status with
  | .filled entry =>
    let (ql, iter) ← quicklistInsert setup ql iter (some entry) value after
    return (⟨ql, .spent iter⟩, .done)
  | .exhausted =>
    if ql.len = 0 then
      let (ql, iter) ← quicklistInsert setup ql iter none value after
      return (⟨ql, .spent iter⟩, .done)
    else return (⟨ql, .iterating iter status⟩, .ignored)
  | .unset => return (⟨ql, .iterating iter status⟩, .ignored)

/-- The calls with an iterator. -/
def iterStep (ql : Quicklist) (iter : QuicklistIter) (status : EntryStatus) :
    QuicklistOp → Attempt (ListState × QuicklistOut)
  | .next => do
      match ← nextEntry setup ql iter with
      | (ql, iter, some entry) => return (⟨ql, .iterating iter (.filled entry)⟩, .element (some entry.value))
      | (ql, iter, none) => return (⟨ql, .iterating iter .exhausted⟩, .element none)
  | .insertBefore value => insertStep setup ql iter status value false
  | .insertAfter value => insertStep setup ql iter status value true
  | .replaceEntry data => do
      match status with
      | .filled entry =>
        let (ql, iter) ← quicklistReplaceEntry setup ql iter entry data
        return (⟨ql, .spent iter⟩, .done)
      | _ => return (⟨ql, .iterating iter status⟩, .ignored)
  | .delEntry => do
      match status with
      | .filled entry =>
        let (ql, iter) ← quicklistDelEntry setup ql iter entry
        return (⟨ql, .iterating iter .unset⟩, .done)
      | _ => return (⟨ql, .iterating iter status⟩, .ignored)
  | .releaseIterator => return (⟨← quicklistReleaseIterator setup ql iter, .idle⟩, .done)
  | _ => return (⟨ql, .iterating iter status⟩, .ignored)

def quicklistStep (state : ListState) (op : QuicklistOp) : Attempt (ListState × QuicklistOut) :=
  match state.client with
  | .idle => idleStep setup state.ql op
  | .iterating iter status => iterStep setup state.ql iter status op
  | .spent iter =>
    match op with
    | .releaseIterator => do return (⟨← quicklistReleaseIterator setup state.ql iter, .idle⟩, .done)
    | _ => .ok (state, .ignored)

end Redis.NodeList

/-
This file embeds the functions of `quicklist.c` that insert, delete, split, and merge nodes.
-/

import Redis.Construction.Quicklist.Node

namespace Redis.NodeList
open Foundation Listpack
variable (setup : Setup)
variable (ql : Quicklist) (value : List UInt8)

/-- The function `__quicklistInsertNode` also returns the index of the new node. -/
def quicklistInsertNode (oldNode : Option Nat) (newNode : QuicklistNode) (after : Bool) : Attempt (Quicklist × Nat) :=
  match oldNode with
  | none => do
      if ql.len ≠ 0 then throw .detachedNode
      let ql := { ql with nodes := [newNode], len := ql.len + 1 }
      return (← quicklistCompress setup ql 0, 0)
  | some old => do
      let new := if after then old + 1 else old
      let ql := { ql with nodes := ql.nodes.insertIdx new newNode, len := ql.len + 1 }
      let ql ← quicklistCompress setup ql (if after then old else old + 1)
      return (← quicklistCompress setup ql new, new)

def quicklistNodeUpdateSz (node : QuicklistNode) : Attempt QuicklistNode :=
  return { node with sz := ← memory (lpBytes node.entry) }

/-- The count of a node keeps 16 bits. -/
def QuicklistNode.addCount (node : QuicklistNode) : QuicklistNode := { node with count := (node.count + 1) % 2 ^ 16 }

/-- The function `__quicklistCreateNode` stores the size of the value. -/
def createNode (container : NodeContainer) (value : List UInt8) : Attempt QuicklistNode := do
  let entry ← (match container with
    | .plain => return value
    | .packed => do nonNull (← memory (lpPrepend (lpNew 0) value)))
  return { quicklistCreateNode with container := container, entry := entry, sz := value.length }.addCount

def quicklistInsertPlainNode (oldNode : Option Nat) (value : List UInt8) (after : Bool) : Attempt Quicklist := do
  let (ql, _) ← quicklistInsertNode setup ql oldNode (← createNode .plain value) after
  return { ql with count := ql.count + 1 }

/-- A new node with one element in a listpack. -/
def newListpackNode : Attempt QuicklistNode := do
  quicklistNodeUpdateSz { quicklistCreateNode with entry := ← nonNull (← memory (lpPrepend (lpNew 0) value)) }

/-- An element is added to the listpack of a node. -/
def growNode (index : Nat) (add : Memory → Checked (Option Memory)) : Attempt Quicklist := do
  let node ← readNode ql index
  let node ← quicklistNodeUpdateSz { node with entry := ← nonNull (← memory (add node.entry)) }
  return setNode ql index node

/-- The end of a push counts the new element. -/
def countElement (index : Nat) : Attempt Quicklist := do
  return setNode { ql with count := ql.count + 1 } index (← readNode ql index).addCount

/-- The result tells whether there is a new head. -/
def quicklistPushHead : Attempt (Quicklist × Bool) := do
  if isLargeElement setup value.length then
    return (← quicklistInsertPlainNode setup ql ql.head value false, true)
  if quicklistNodeAllowInsert setup ql.nodes.head? ql.fill value.length then
    let ql ← growNode ql 0 (lpPrepend · value)
    return (← countElement ql 0, false)
  else
    let (ql, _) ← quicklistInsertNode setup ql ql.head (← newListpackNode value) false
    return (← countElement ql 0, true)

/-- The result tells whether there is a new tail. -/
def quicklistPushTail : Attempt (Quicklist × Bool) := do
  if isLargeElement setup value.length then
    return (← quicklistInsertPlainNode setup ql ql.tail value true, true)
  if quicklistNodeAllowInsert setup ql.nodes.getLast? ql.fill value.length then
    let ql ← growNode ql (ql.nodes.length - 1) (lpAppend · value)
    return (← countElement ql (ql.nodes.length - 1), false)
  else
    let node ← quicklistNodeUpdateSz
      { quicklistCreateNode with entry := ← nonNull (← memory (lpAppend (lpNew 0) value)) }
    let (ql, _) ← quicklistInsertNode setup ql ql.tail node true
    return (← countElement ql (ql.nodes.length - 1), true)

def quicklistAppendListpack (zl : Memory) : Attempt Quicklist := do
  let (count, zl) ← memory (lpLength zl)
  let node := { quicklistCreateNode with entry := zl, count := count % 2 ^ 16 }
  let node ← quicklistNodeUpdateSz node
  let (ql, _) ← quicklistInsertNode setup ql ql.tail node true
  return { ql with count := ql.count + node.count }

def quicklistAppendPlainNode (data : List UInt8) : Attempt Quicklist := do
  let node := { quicklistCreateNode with entry := data, count := 1, sz := data.length, container := .plain }
  let (ql, _) ← quicklistInsertNode setup ql ql.tail node true
  return { ql with count := ql.count + node.count }

def quicklistDelNode (ql : Quicklist) (index : Nat) : Attempt Quicklist := do
  let node ← readNode ql index
  compressList setup { ql with
    nodes := ql.nodes.eraseIdx index, len := subtract ql.len 1, count := subtract ql.count node.count } none

/-- The result tells whether the node is gone. -/
def quicklistDelIndex (ql : Quicklist) (index p : Nat) : Attempt (Quicklist × Bool) := do
  let node ← readNode ql index
  if node.container = .plain then return (← quicklistDelNode setup ql index, true)
  let (entry, _) ← nonNull (← memory (lpDelete node.entry p))
  let node := { node with entry := entry, count := (node.count + 2 ^ 16 - 1) % 2 ^ 16 }
  if node.count = 0 then
    let ql ← quicklistDelNode setup (setNode ql index node) index
    return ({ ql with count := subtract ql.count 1 }, true)
  else
    let node ← quicklistNodeUpdateSz node
    let ql := setNode ql index node
    return ({ ql with count := subtract ql.count 1 }, false)

def countNode (node : QuicklistNode) : Attempt QuicklistNode := do
  let (count, entry) ← memory (lpLength node.entry)
  quicklistNodeUpdateSz { node with entry := entry, count := count % 2 ^ 16 }

/-- The function `_quicklistListpackMerge` on a node and its next one. The larger listpack is
kept, and after the deletion of the other node it has the index of the first one. -/
def quicklistListpackMerge (ql : Quicklist) (index : Nat) : Attempt Quicklist := do
  let ql ← quicklistDecompressNode setup ql index
  let ql ← quicklistDecompressNode setup ql (index + 1)
  let a ← readNode ql index
  let b ← readNode ql (index + 1)
  let entry ← memory (lpMerge a.entry b.entry)
  let first := (← memory (lpBytes a.entry)) ≥ (← memory (lpBytes b.entry))
  let keep ← countNode { (if first then a else b) with entry := entry }
  let keep := { keep with recompress := false }
  let nokeep := { (if first then b else a) with count := 0 }
  let ql := setNode (setNode ql index (if first then keep else nokeep)) (index + 1) (if first then nokeep else keep)
  let ql ← quicklistDelNode setup ql (if first then index + 1 else index)
  quicklistCompress setup ql index

/-- A node and its next one are merged if this is allowed. -/
def mergeAllowed (ql : Quicklist) (index : Nat) : Bool :=
  quicklistNodeAllowMerge ql.nodes[index]? ql.nodes[index + 1]? ql.fill

/-- The function `_quicklistMergeNodes` also returns the index of the new center. -/
def quicklistMergeNodes (ql : Quicklist) (center : Nat) : Attempt (Quicklist × Nat) := do
  let (ql, center) ← (if 2 ≤ center ∧ mergeAllowed ql (center - 2) then do
      return (← quicklistListpackMerge setup ql (center - 2), center - 1)
    else return (ql, center))
  let ql ← (if mergeAllowed ql (center + 1) then quicklistListpackMerge setup ql (center + 1) else return ql)
  let (ql, target) ← (if 1 ≤ center ∧ mergeAllowed ql (center - 1) then do
      return (← quicklistListpackMerge setup ql (center - 1), center - 1)
    else return (ql, center))
  let ql ← (if mergeAllowed ql target then quicklistListpackMerge setup ql target else return ql)
  return (ql, target)

/-- The function `_quicklistSplitNode` returns the changed node and the new one.
The extent `-1` is the largest `unsigned long`. -/
def quicklistSplitNode (node : QuicklistNode) (offset : Int) (after : Bool) :
    Attempt (QuicklistNode × QuicklistNode) := do
  let copy ← memory (readBytes node.entry 0 node.sz)
  let offset := if offset < 0 then node.count + offset else offset
  let (origStart, origExtent) := if after then (offset + 1, 2 ^ 64 - 1) else (0, offset.toNat)
  let (newStart, newExtent) := if after then (0, (offset + 1).toNat) else (offset, 2 ^ 64 - 1)
  let orig ← countNode { node with entry := ← memory (lpDeleteRange node.entry origStart origExtent) }
  let new ← countNode { quicklistCreateNode with entry := ← memory (lpDeleteRange copy newStart newExtent) }
  return (orig, new)

end Redis.NodeList

/-
This file embeds the public functions of `quicklist.c` that change a list.
-/

import Redis.Construction.Quicklist.Iterator

namespace Redis.NodeList
open Foundation Listpack
variable (setup : Setup)
variable (ql : Quicklist) (iter : QuicklistIter) (entry : QuicklistEntry) (value : List UInt8)

def resetIterator : QuicklistIter := { iter with current := none, zi := none }

/-- A deleted node moves the iterator to a neighbour. -/
def quicklistDelEntry : Attempt (Quicklist × QuicklistIter) := do
  let (ql', deletedNode) ← quicklistDelIndex setup ql entry.node entry.zi
  let iter := { iter with zi := none }
  if deletedNode then
    match iter.direction with
    | .head => return (ql', { iter with current := (ql.next entry.node).map (· - 1), offset := 0 })
    | .tail => return (ql', { iter with current := prevIndex entry.node, offset := -1 })
  else return (ql', iter)

def insertFirst (after : Bool) : Attempt Quicklist := do
  if isLargeElement setup value.length then quicklistInsertPlainNode setup ql ql.tail value after
  else
    let node := { quicklistCreateNode with entry := ← nonNull (← memory (lpPrepend (lpNew 0) value)) }
    let (ql, new) ← quicklistInsertNode setup ql none node after
    countElement ql new

/-- The element is added to the listpack of a node that is compressed again afterwards. -/
def insertInNode (index : Nat) (add : Memory → Checked (Option Memory)) : Attempt Quicklist := do
  let ql ← quicklistDecompressNodeForUse setup ql index
  let node := (← readNode ql index)
  let node ← quicklistNodeUpdateSz { node with entry := ← nonNull (← memory (add node.entry)) }.addCount
  quicklistRecompressOnly setup (setNode ql index node) index

/-- The large element goes into a node of its own. The result holds the new index of the node. -/
def insertLarge (after ends : Bool) : Attempt (Quicklist × Nat) := do
  if ends then
    let ql ← quicklistInsertPlainNode setup ql (some entry.node) value after
    return (ql, if after then entry.node else entry.node + 1)
  else
    let ql ← quicklistDecompressNodeForUse setup ql entry.node
    let (node, newNode) ← quicklistSplitNode (← readNode ql entry.node) entry.offset after
    let ql := setNode ql entry.node node
    let (ql, large) ← quicklistInsertNode setup ql (some entry.node) (← createNode .plain value) after
    let (ql, _) ← quicklistInsertNode setup ql (some large) newNode after
    return ({ ql with count := ql.count + 1 }, if after then entry.node else entry.node + 2)

/-- The full node is split, and the element is added to the new node. -/
def insertSplit (after : Bool) : Attempt Quicklist := do
  let ql ← quicklistDecompressNodeForUse setup ql entry.node
  let (node, newNode) ← quicklistSplitNode (← readNode ql entry.node) entry.offset after
  let ql := setNode ql entry.node node
  let grown ← memory (if after then lpPrepend newNode.entry value else lpAppend newNode.entry value)
  let newNode ← quicklistNodeUpdateSz { newNode with entry := ← nonNull grown }.addCount
  let (ql, _) ← quicklistInsertNode setup ql (some entry.node) newNode after
  let (ql, _) ← quicklistMergeNodes setup ql (if after then entry.node else entry.node + 1)
  return ql

/-- The function `_quicklistInsert`. An entry without a node is `none`. -/
def quicklistInsert (entry : Option QuicklistEntry) (value : List UInt8)
    (after : Bool) : Attempt (Quicklist × QuicklistIter) := do
  match entry with
  | none => return (← insertFirst setup ql value after, iter)
  | some entry =>
    let node ← readNode ql entry.node
    let allows := fun index : Option Nat =>
      quicklistNodeAllowInsert setup (index.bind (ql.nodes[·]?)) ql.fill value.length
    let full := !allows (some entry.node)
    let atTail : Bool := after && decide (entry.offset = node.count - 1 ∨ entry.offset = -1)
    let availNext := atTail && allows (ql.next entry.node)
    let atHead : Bool := !after && decide (entry.offset = 0 ∨ entry.offset = -node.count)
    let availPrev := atHead && allows (prevIndex entry.node)
    if isLargeElement setup value.length then
      let ends := decide (node.container = .plain) || atTail || atHead
      let (ql, current) ← insertLarge setup ql entry value after ends
      return (ql, { iter with current := some current })
    let ql ← (if !full then
        insertInNode setup ql entry.node fun lp =>
          return (← lpInsertString lp value entry.zi (if after then .after else .before)).map Prod.fst
      else if availNext then do
        let ql ← insertInNode setup ql (entry.node + 1) (lpPrepend · value)
        quicklistRecompressOnly setup ql entry.node
      else if availPrev then do
        let ql ← insertInNode setup ql (entry.node - 1) (lpAppend · value)
        quicklistRecompressOnly setup ql entry.node
      else if atTail || atHead then do
        let newNode ← newListpackNode value
        let (ql, _) ← quicklistInsertNode setup ql (some entry.node) newNode.addCount after
        return ql
      else insertSplit setup ql entry value after)
    return ({ ql with count := ql.count + 1 }, resetIterator iter)

/-- The node is full, or the data is a large element. -/
def replaceInNewNode (data : List UInt8) : Attempt Quicklist := do
  let node ← readNode ql entry.node
  let node := { node with dontCompress := true }
  let (node, splitNode) ← (if entry.offset ≠ node.count - 1 ∧ entry.offset ≠ -1 then do
      let (node, splitNode) ← quicklistSplitNode node entry.offset true
      return (node, some splitNode)
    else return (node, none))
  let ql := setNode ql entry.node node
  let newNode ← createNode (if isLargeElement setup data.length then .plain else .packed) data
  let (ql, new) ← quicklistInsertNode setup ql (some entry.node) newNode true
  let ql ← (match splitNode with
    | some splitNode => do return (← quicklistInsertNode setup ql (some new) splitNode true).1
    | none => return ql)
  let ql := { ql with count := ql.count + 1 }
  let node ← readNode ql entry.node
  if node.count = 1 then quicklistDelNode setup ql entry.node
  else
    let p ← nonNull (← memory (lpSeek node.entry (-1)))
    let (ql, _) ← quicklistDelIndex setup ql entry.node p
    let ql := setNode ql entry.node { (← readNode ql entry.node) with dontCompress := false }
    let (ql, new) ← quicklistMergeNodes setup ql new
    let ql ← quicklistCompress setup ql new
    let ql ← quicklistCompress setup ql (← nonNull (prevIndex new))
    match ql.next new with
    | some next => quicklistCompress setup ql next
    | none => return ql

def quicklistReplaceEntry (data : List UInt8) : Attempt (Quicklist × QuicklistIter) := do
  let node ← readNode ql entry.node
  let large := isLargeElement setup data.length
  let replaced ← (if node.container = .packed ∧ ¬ large then memory (lpReplace node.entry entry.zi data)
    else return none)
  let ql ← (match replaced with
    | some (newentry, _) => do
        let node ← quicklistNodeUpdateSz { node with entry := newentry }
        quicklistCompress setup (setNode ql entry.node node) entry.node
    | none =>
      if node.container = .plain then
        if large then
          let node := { node with entry := data, sz := data.length }
          quicklistCompress setup (setNode ql entry.node node) entry.node
        else do
          let (ql, _) ← quicklistInsert setup ql iter (some entry) data true
          quicklistDelNode setup ql entry.node
      else replaceInNewNode setup ql entry data)
  return (ql, resetIterator iter)

/-- The result tells whether the index exists. -/
def quicklistReplaceAtIndex (index : Int) (data : List UInt8) : Attempt (Quicklist × Bool) := do
  match ← quicklistGetIteratorEntryAtIdx setup ql index with
  | (ql, none) => return (ql, false)
  | (ql, some (iter, entry)) =>
    let (ql, iter) ← quicklistReplaceEntry setup ql iter entry data
    return (← quicklistReleaseIterator setup ql iter, true)

/-- The loop deletes from one node in each step. -/
def delRangeLoop : Nat → Quicklist → Nat → Int → Nat → Attempt Quicklist
  | _, ql, _, _, 0 => .ok ql
  | 0, _, _, _, _ + 1 => .error .outOfFuel
  | fuel + 1, ql, index, offset, extent + 1 => do
      let extent := extent + 1
      let node ← nonNull ql.nodes[index]?
      let entire : Bool := decide (offset = 0 ∧ extent ≥ node.count)
      let del : Nat :=
        if entire then node.count
        else if offset ≥ 0 ∧ extent + offset ≥ node.count then (node.count - offset).toNat
        else if offset < 0 then min (-offset).toNat extent
        else extent
      if entire ∨ node.container = .plain then
        delRangeLoop fuel (← quicklistDelNode setup ql index) index 0 (extent - del)
      else
        let ql ← quicklistDecompressNodeForUse setup ql index
        let node ← readNode ql index
        let node ← quicklistNodeUpdateSz { node with entry := ← memory (lpDeleteRange node.entry offset del) }
        let node := { node with count := (node.count + 2 ^ 16 - del) % 2 ^ 16 }
        let ql := setNode { ql with count := subtract ql.count del } index node
        if node.count = 0 then
          delRangeLoop fuel (← quicklistDelNode setup ql index) index 0 (extent - del)
        else
          delRangeLoop fuel (← quicklistRecompressOnly setup ql index) (index + 1) 0 (extent - del)

/-- The result tells whether entries were deleted. -/
def quicklistDelRange (start count : Int) : Attempt (Quicklist × Bool) := do
  if count ≤ 0 then return (ql, false)
  let extent := count.toNat
  let extent := if start ≥ 0 ∧ extent > subtract ql.count start.toNat then ql.count - start.toNat
    else if start < 0 ∧ extent > (-start).toNat then (-start).toNat else extent
  match ← quicklistGetIteratorAtIdx ql .tail start with
  | none => return (ql, false)
  | some iter =>
    let node ← nonNull iter.current
    let ql ← quicklistReleaseIterator setup ql iter
    return (← delRangeLoop setup (ql.nodes.length + 1) ql node iter.offset extent, true)

def dupLoop : List QuicklistNode → Quicklist → Attempt Quicklist
  | [], copy => .ok copy
  | current :: nodes, copy => do
      let entry ← (match current.encoding with
        | .lzf => return current.entry
        | .raw => memory (readBytes current.entry 0 current.sz))
      let node := { quicklistCreateNode with
        entry := entry, count := current.count, sz := current.sz
        encoding := current.encoding, container := current.container }
      let copy := { copy with count := copy.count + node.count }
      let (copy, _) ← quicklistInsertNode setup copy copy.tail node true
      dupLoop nodes copy

def quicklistDup (orig : Quicklist) : Attempt Quicklist :=
  dupLoop setup orig.nodes (quicklistNew orig.fill orig.compress)

/-- The result is `none` if no element is available, and otherwise the string of the element. -/
def quicklistPopCustom (position : Direction) : Attempt (Quicklist × Option (List UInt8)) := do
  if ql.count = 0 then return (ql, none)
  match (match position with | .head => ql.head | .tail => ql.tail) with
  | none => return (ql, none)
  | some index =>
    let node ← readNode ql index
    assert .quicklistPopCustom (node.encoding ≠ .lzf)
    if node.container = .plain then
      let data ← memory (readBytes node.entry 0 node.sz)
      return ((← quicklistDelIndex setup ql index 0).1, some data)
    let p ← nonNull (← memory (lpSeek node.entry (match position with | .head => 0 | .tail => -1)))
    let data ← memory (lpGet node.entry p)
    return ((← quicklistDelIndex setup ql index p).1, some data)

def quicklistPush (position : Direction) : Attempt Quicklist := do
  assert .quicklistPush (∀ node ∈ ql.nodes.head?, node.encoding ≠ .lzf)
  assert .quicklistPush (∀ node ∈ ql.nodes.getLast?, node.encoding ≠ .lzf)
  match position with
  | .head => return (← quicklistPushHead setup ql value).1
  | .tail => return (← quicklistPushTail setup ql value).1

end Redis.NodeList

/-
This file embeds the radix tree of `rax.c`.
Nodes have no sharing, so a node owns its children. A pointer to a node and its parent link
are a stack of frames: the visited nodes with the index of the child that the walk took.
Allocation does not fail.
-/

import Redis.Construction.Fault
import Redis.Foundation.Outcome

namespace Redis.Radix
open Foundation

def raxNodeMaxSize : Nat := 2 ^ 29 - 1

/-- The field `size` is the length of the data. A value pointer is stored only for a key that
is not null. -/
structure RaxNode (V : Type) where
  iskey : Bool
  isnull : Bool
  iscompr : Bool
  data : List UInt8
  children : List (RaxNode V)
  slot : Option V

structure Rax (V : Type) where
  head : RaxNode V
  numele : Nat
  numnodes : Nat

variable {V : Type}
variable (n : RaxNode V) (rax : Rax V) (s : List UInt8) (data : Option V) (h : RaxNode V)

def RaxNode.size : Nat := n.data.length

def raxNewNode : RaxNode V := ⟨false, false, false, [], [], none⟩

def raxNew : Rax V := ⟨raxNewNode, 0, 1⟩

/-- A `NULL` value is `none`. -/
def raxSetData : RaxNode V :=
  match data with
  | some value => { n with iskey := true, isnull := false, slot := some value }
  | none => { n with iskey := true, isnull := true }

def raxGetData : Checked (Option V) :=
  if n.isnull then .ok none
  else match n.slot with
    | some value => .ok (some value)
    | none => .error .outOfBounds

/-- The result holds the node and the index of the new child. -/
def raxAddChild (c : UInt8) : Checked (RaxNode V × Nat) := do
  require .raxAddChild (n.iscompr = false)
  let pos := n.data.findIdx (· > c)
  return ({ n with
    data := n.data.take pos ++ c :: n.data.drop pos
    children := n.children.take pos ++ raxNewNode :: n.children.drop pos }, pos)

def raxCompressNode : Checked (RaxNode V) := do
  require .raxCompressNode (n.size = 0 ∧ n.iscompr = false)
  let compressed := { n with iscompr := true, data := s, children := [raxNewNode] }
  if n.iskey then return raxSetData compressed (← raxGetData n) else return compressed

/-- One level of the walk. -/
structure Frame (V : Type) where
  node : RaxNode V
  index : Nat

/-- The parent link of a child is changed. -/
def Frame.plug (frame : Frame V) (child : RaxNode V) : RaxNode V :=
  { frame.node with children := frame.node.children.set frame.index child }

/-- The tree with a changed subtree. The innermost frame is the first one. -/
def plug : List (Frame V) → RaxNode V → RaxNode V
  | [], h => h
  | frame :: ts, h => plug ts (frame.plug h)

/-- The number of equal bytes at the start. -/
def matchLength : List UInt8 → List UInt8 → Nat
  | v :: vs, c :: cs => if v = c then matchLength vs cs + 1 else 0
  | _, _ => 0

/-- What `raxLowWalk` returns: the unprocessed part of the key, the stop node, the split
position, and the visited nodes. -/
structure Walk (V : Type) where
  rest : List UInt8
  stopnode : RaxNode V
  splitpos : Nat
  ts : List (Frame V)

/-- Each step of the walk processes at least one byte of the key. -/
def raxLowWalk : Nat → RaxNode V → List UInt8 → List (Frame V) → Checked (Walk V)
  | _, h, [], ts => .ok ⟨[], h, 0, ts⟩
  | fuel, h, c :: cs, ts =>
    if h.size = 0 then .ok ⟨c :: cs, h, 0, ts⟩
    else if h.iscompr then
      let j := matchLength h.data (c :: cs)
      if j ≠ h.size then .ok ⟨(c :: cs).drop j, h, j, ts⟩
      else match fuel with
        | 0 => .error .outOfFuel
        | fuel + 1 => do raxLowWalk fuel (← readCell h.children 0) ((c :: cs).drop j) (⟨h, 0⟩ :: ts)
    else
      let j := h.data.findIdx (· = c)
      if j = h.size then .ok ⟨c :: cs, h, 0, ts⟩
      else match fuel with
        | 0 => .error .outOfFuel
        | fuel + 1 => do raxLowWalk fuel (← readCell h.children j) cs (⟨h, j⟩ :: ts)

/-- The result is `none` for `raxNotFound`. -/
def raxFind : Checked (Option (Option V)) := do
  let walk ← raxLowWalk s.length rax.head s []
  let h := walk.stopnode
  if walk.rest ≠ [] ∨ (h.iscompr ∧ walk.splitpos ≠ 0) ∨ ¬ h.iskey then return none
  return some (← raxGetData h)

/-- The node with the first bytes of a compressed node. -/
def trimNode (j : Nat) (child : RaxNode V) : RaxNode V :=
  { h with iscompr := decide (j > 1), data := h.data.take j, children := [child] }

/-- The node with the last bytes of a compressed node. -/
def postfixNode (data : List UInt8) (child : RaxNode V) : RaxNode V :=
  ⟨false, false, decide (data.length > 1), data, [child], none⟩

/-- The result of the first algorithm is the split node, its frames, and the node count. -/
def splitNode (j : Nat) (ts : List (Frame V)) (numnodes : Nat) : Checked (RaxNode V × List (Frame V) × Nat) := do
  let next ← readCell h.children 0
  let letter ← readCell h.data j
  let postfixlen := h.size - j - 1
  let (child, numnodes) :=
    if postfixlen ≠ 0 then (postfixNode (h.data.drop (j + 1)) next, numnodes + 1) else (next, numnodes)
  let splitnode : RaxNode V := ⟨false, false, false, [letter], [child], none⟩
  if j = 0 then
    let splitnode ← (if h.iskey then do return raxSetData splitnode (← raxGetData h) else return splitnode)
    return (splitnode, ts, numnodes)
  else return (splitnode, ⟨trimNode h j splitnode, 0⟩ :: ts, numnodes + 1)

/-- The second algorithm replaces the stop node by two nodes. The second one is the new key. -/
def splitKey (j : Nat) (data : Option V) : Checked (RaxNode V) := do
  let next ← readCell h.children 0
  let trimmed := { trimNode h j (raxSetData (postfixNode (h.data.drop j) next) data) with
    iskey := false, isnull := false }
  if h.iskey then return raxSetData trimmed (← raxGetData h) else return trimmed

def insertLoop : Nat → List UInt8 → RaxNode V → List (Frame V) → Nat → Checked (RaxNode V × List (Frame V) × Nat)
  | _, [], h, ts, numnodes => .ok (h, ts, numnodes)
  | 0, _ :: _, _, _, _ => .error .outOfFuel
  | fuel + 1, c :: cs, h, ts, numnodes =>
    if h.size = 0 ∧ cs.length + 1 > 1 then do
      let comprsize := min (cs.length + 1) raxNodeMaxSize
      let newh ← raxCompressNode h ((c :: cs).take comprsize)
      insertLoop fuel ((c :: cs).drop comprsize) (← readCell newh.children 0) (⟨newh, 0⟩ :: ts) (numnodes + 1)
    else do
      let (newh, pos) ← raxAddChild h c
      insertLoop fuel cs (← readCell newh.children pos) (⟨newh, pos⟩ :: ts) (numnodes + 1)

/-- The returned flag is 1 for a new key. The old value is set for an existing key. -/
structure InsertResult (V : Type) where
  inserted : Bool
  old : Option (Option V)

def raxGenericInsert (overwrite : Bool) : Checked (Rax V × InsertResult V) := do
  let walk ← raxLowWalk s.length rax.head s []
  let h := walk.stopnode
  let j := walk.splitpos
  if walk.rest = [] ∧ (h.iscompr = false ∨ j = 0) then
    if h.iskey then
      let old ← raxGetData h
      let h := if overwrite then raxSetData h data else h
      return ({ rax with head := plug walk.ts h }, ⟨false, some old⟩)
    else
      return ({ rax with head := plug walk.ts (raxSetData h data), numele := rax.numele + 1 }, ⟨true, none⟩)
  else if h.iscompr ∧ walk.rest = [] then
    let h ← splitKey h j data
    return (⟨plug walk.ts h, rax.numele + 1, rax.numnodes + 1⟩, ⟨true, none⟩)
  else
    let (h, ts, numnodes) ← (if h.iscompr then splitNode h j walk.ts rax.numnodes
      else return (h, walk.ts, rax.numnodes))
    let (h, ts, numnodes) ← insertLoop walk.rest.length walk.rest h ts numnodes
    let numele := if h.iskey then rax.numele else rax.numele + 1
    return (⟨plug ts (raxSetData h data), numele, numnodes⟩, ⟨true, none⟩)

def raxInsert : Checked (Rax V × InsertResult V) := raxGenericInsert rax s data true

def raxTryInsert : Checked (Rax V × InsertResult V) := raxGenericInsert rax s data false

def raxRemoveChild (parent : RaxNode V) (index : Nat) : Checked (RaxNode V) :=
  if parent.iscompr then do
    let removed := { parent with isnull := false, iscompr := false, data := [], children := [] }
    if parent.iskey then return raxSetData removed (← raxGetData parent) else return removed
  else return { parent with data := parent.data.eraseIdx index, children := parent.children.eraseIdx index }

/-- The node has other children or is a key, so that no chain goes through it. -/
def RaxNode.stopsChain : Prop := h.iskey ∨ (h.iscompr = false ∧ h.size ≠ 1)

instance (h : RaxNode V) : Decidable h.stopsChain := inferInstanceAs (Decidable (_ ∨ _))

/-- The cleanup frees the child of each frame that it pops and stops at the node to keep. -/
def cleanupLoop (frame : Frame V) : List (Frame V) → Nat → Frame V × List (Frame V) × Nat
  | [], numnodes => (frame, [], numnodes - 1)
  | parent :: ts, numnodes =>
    if frame.node.stopsChain then (frame, parent :: ts, numnodes - 1)
    else cleanupLoop parent ts (numnodes - 1)

/-- The loop reaches the upper node that is compressible. -/
def climbLoop : List (Frame V) → RaxNode V → RaxNode V × List (Frame V)
  | [], h => (h, [])
  | parent :: ts, h => if parent.node.stopsChain then (h, parent :: ts) else climbLoop ts (parent.plug h)

def raxNodeLastChild : Checked (RaxNode V) := readCell h.children (h.children.length - 1)

def scanLoop : Nat → RaxNode V → Nat → Nat → Checked (Nat × Nat)
  | fuel, h, comprsize, nodes =>
    if h.size = 0 then .ok (comprsize, nodes)
    else match fuel with
      | 0 => .error .outOfFuel
      | fuel + 1 => do
          let h ← raxNodeLastChild h
          if h.stopsChain then return (comprsize, nodes)
          if comprsize + h.size > raxNodeMaxSize then return (comprsize, nodes)
          scanLoop fuel h (comprsize + h.size) (nodes + 1)

/-- The second scan returns the bytes of the chain, the first node after it, and the number
of freed nodes. -/
def copyLoop : Nat → RaxNode V → List UInt8 → Nat → Checked (List UInt8 × RaxNode V × Nat)
  | fuel, h, bytes, freed =>
    if h.size = 0 then .ok (bytes, h, freed)
    else match fuel with
      | 0 => .error .outOfFuel
      | fuel + 1 => do
          let next ← raxNodeLastChild h
          if next.stopsChain then return (bytes ++ h.data, next, freed + 1)
          copyLoop fuel next (bytes ++ h.data) (freed + 1)

/-- The recompression of a chain. The copied bytes have to fit in the new node. -/
def recompress (ts : List (Frame V)) (numnodes : Nat) : Checked (RaxNode V × Nat) := do
  let (start, ts) := climbLoop ts h
  let (comprsize, nodes) ← scanLoop numnodes start start.size 1
  if nodes > 1 then
    let (bytes, next, freed) ← copyLoop numnodes start [] 0
    if bytes.length ≠ comprsize then throw .outOfBounds
    return (plug ts ⟨false, false, true, bytes, [next], none⟩, numnodes + 1 - freed)
  else return (plug ts start, numnodes)

/-- The part of `raxRemove` that reclaims nodes after `h` has lost its key. -/
def reclaim (ts : List (Frame V)) (numnodes : Nat) : Checked (RaxNode V × Nat) :=
  if h.size = 0 then
    match ts with
    | [] => return (h, numnodes)
    | frame :: ts => do
        let (frame, ts, numnodes) := cleanupLoop frame ts numnodes
        let new ← raxRemoveChild frame.node frame.index
        if new.size = 1 ∧ new.iskey = false then recompress new ts numnodes
        else return (plug ts new, numnodes)
  else if h.size = 1 then recompress h ts numnodes
  else return (plug ts h, numnodes)

/-- The returned flag is 1 for a deleted key, and the old value is set for it. -/
structure RemoveResult (V : Type) where
  removed : Bool
  old : Option (Option V)

def raxRemove : Checked (Rax V × RemoveResult V) := do
  let walk ← raxLowWalk s.length rax.head s []
  let h := walk.stopnode
  if walk.rest ≠ [] ∨ (h.iscompr ∧ walk.splitpos ≠ 0) ∨ ¬ h.iskey then return (rax, ⟨false, none⟩)
  let old ← raxGetData h
  let (head, numnodes) ← reclaim { h with iskey := false } walk.ts rax.numnodes
  return (⟨head, rax.numele - 1, numnodes⟩, ⟨true, some old⟩)

/-- A key that fits in one node. -/
abbrev RaxKey := { s : List UInt8 // s.length ≤ raxNodeMaxSize }

inductive RaxOp (V : Type) where
  | insert (key : RaxKey) (data : Option V)
  | tryInsert (key : RaxKey) (data : Option V)
  | remove (key : RaxKey)
  | find (key : RaxKey)

/-- The observable result of one operation. -/
inductive RaxOut (V : Type) where
  | insert (result : InsertResult V)
  | remove (result : RemoveResult V)
  | find (value : Option (Option V))

def raxStep : RaxOp V → Checked (Rax V × RaxOut V)
  | .insert key data => do
      let (rax, result) ← raxInsert rax key.1 data
      return (rax, .insert result)
  | .tryInsert key data => do
      let (rax, result) ← raxTryInsert rax key.1 data
      return (rax, .insert result)
  | .remove key => do
      let (rax, result) ← raxRemove rax key.1
      return (rax, .remove result)
  | .find key => do return (rax, .find (← raxFind rax key.1))

end Redis.Radix

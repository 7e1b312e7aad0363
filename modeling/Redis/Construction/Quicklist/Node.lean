/-
This file embeds the nodes of `quicklist.c` and their compression.
The doubly linked nodes are a list, and a pointer to a node is its index in this list.
Allocation does not fail. Bookmarks are left out.
-/

import Redis.Construction.Listpack.Update

namespace Redis.NodeList
open Foundation Listpack

/-- Each site names the source function whose assertion stops the process. -/
inductive QuicklistAssert where
  | quicklistCompressNode
  | quicklistCompress
  | quicklistPopCustom
  | quicklistPush
  | quicklistGetIteratorEntryAtIdx
  deriving DecidableEq, Repr

/-- A memory fault includes every fault of a listpack function. A node that is inserted next
to no node of a list with nodes is not linked into the list. -/
inductive QuicklistFault where
  | assertion (site : QuicklistAssert)
  | memory (fault : Fault)
  | detachedNode
  | outOfFuel
  deriving DecidableEq, Repr

abbrev Attempt (A : Type) := Except QuicklistFault A

def memory {A : Type} : Checked A → Attempt A
  | .ok value => .ok value
  | .error fault => .error (.memory fault)

def assert (site : QuicklistAssert) (condition : Prop) [Decidable condition] : Attempt Unit :=
  if condition then .ok () else .error (.assertion site)

/-- The use of a pointer that can be `NULL`. -/
def nonNull {A : Type} : Option A → Attempt A
  | some value => .ok value
  | none => .error (.memory .nullPointer)

/-- The static variable `packed_threshold` and the LZF library, whose output buffer has the
size of the input. -/
structure Setup where
  packedThreshold : Nat
  lzfCompress : List UInt8 → Option (List UInt8)
  lzfDecompress : List UInt8 → Nat → Option (List UInt8)
  /-- The check of `quicklistisSetPackedThreshold`. -/
  threshold_le : packedThreshold ≤ 2 ^ 32 - 2 ^ 20
  decompress_compress : ∀ input output, lzfCompress input = some output →
    lzfDecompress output input.length = some input

def isLargeElement (setup : Setup) (size : Nat) : Prop := size ≥ setup.packedThreshold

instance (setup : Setup) (size : Nat) : Decidable (isLargeElement setup size) := inferInstanceAs (Decidable (_ ≥ _))

def sizeSafetyLimit : Nat := 8192
def sizeEstimateOverhead : Nat := 8
def minCompressBytes : Nat := 48
def minCompressImprove : Nat := 8

inductive NodeEncoding where
  | raw
  | lzf
  deriving DecidableEq, Repr

inductive NodeContainer where
  | plain
  | packed
  deriving DecidableEq, Repr

/-- The entry of a compressed node holds the compressed bytes. -/
structure QuicklistNode where
  entry : Memory
  sz : Nat
  count : Nat
  encoding : NodeEncoding
  container : NodeContainer
  recompress : Bool
  dontCompress : Bool
  deriving DecidableEq, Repr

/-- The head and the tail are the ends of the list of nodes. -/
structure Quicklist where
  nodes : List QuicklistNode
  count : Nat
  len : Nat
  fill : Int
  compress : Nat
  deriving DecidableEq, Repr

/-- The fields keep 16 bits. -/
def compressMax : Nat := 2 ^ 16 - 1
def fillMax : Int := 2 ^ 15 - 1

def quicklistNew (fill compress : Int) : Quicklist :=
  { nodes := [], count := 0, len := 0
    fill := if fill > fillMax then fillMax else if fill < -5 then -5 else fill
    compress := min compress.toNat compressMax }

def quicklistCreateNode : QuicklistNode := ⟨[], 0, 0, .raw, .packed, false, false⟩

/-- The difference of two `unsigned long` values. -/
def subtract (a b : Nat) : Nat := if b ≤ a then a - b else a + 2 ^ 64 - b

variable (ql : Quicklist) (index : Nat)

def readNode : Attempt QuicklistNode := memory (readCell ql.nodes index)

def setNode (node : QuicklistNode) : Quicklist := { ql with nodes := ql.nodes.set index node }

/-- The pointers `head` and `tail`. -/
def Quicklist.head : Option Nat := if ql.nodes = [] then none else some 0
def Quicklist.tail : Option Nat := if ql.nodes = [] then none else some (ql.nodes.length - 1)

/-- The pointers `next` and `prev` of a node. -/
def Quicklist.next : Option Nat := if index + 1 < ql.nodes.length then some (index + 1) else none
def prevIndex : Option Nat := if index = 0 then none else some (index - 1)

section Compression
variable (setup : Setup)
variable (ql : Quicklist) (index : Nat)

def compressNode : Attempt Quicklist := do
  let node ← readNode ql index
  if node.dontCompress then return ql
  assert .quicklistCompressNode (0 < index ∧ index + 1 < ql.nodes.length)
  let node := { node with recompress := false }
  if node.sz < minCompressBytes then return setNode ql index node
  match setup.lzfCompress (← memory (readBytes node.entry 0 node.sz)) with
  | none => return setNode ql index node
  | some lzf =>
    if lzf.length = 0 ∨ lzf.length + minCompressImprove ≥ node.sz then return setNode ql index node
    return setNode ql index { node with entry := lzf, encoding := .lzf }

/-- The macro compresses only uncompressed nodes. -/
def quicklistCompressNode : Attempt Quicklist := do
  if (← readNode ql index).encoding = .raw then compressNode setup ql index else return ql

def decompressNode : Attempt Quicklist := do
  let node ← readNode ql index
  match setup.lzfDecompress node.entry node.sz with
  | none => return setNode ql index { node with recompress := false }
  | some bytes => return setNode ql index { node with entry := bytes, encoding := .raw, recompress := false }

/-- The macro decompresses only compressed nodes. -/
def quicklistDecompressNode : Attempt Quicklist := do
  if (← readNode ql index).encoding = .lzf then decompressNode setup ql index else return ql

def quicklistDecompressNodeForUse : Attempt Quicklist := do
  if (← readNode ql index).encoding = .lzf then
    let ql ← decompressNode setup ql index
    return setNode ql index { (← readNode ql index) with recompress := true }
  else return ql

/-- The loop visits the nodes within the compress depth from both ends. Its result is `none`
if it meets the other side, and otherwise the flag `in_depth`. -/
def compressLoop (node : Option Nat) : Nat → Nat → Nat → Bool → Quicklist → Attempt (Quicklist × Option (Nat × Nat × Bool))
  | 0, forward, reverse, inDepth, ql => .ok (ql, some (forward, reverse, inDepth))
  | depth + 1, forward, reverse, inDepth, ql => do
      let ql ← quicklistDecompressNode setup ql forward
      let ql ← quicklistDecompressNode setup ql reverse
      let inDepth := inDepth || decide (node = some forward) || decide (node = some reverse)
      if forward = reverse ∨ forward + 1 = reverse then return (ql, none)
      compressLoop node depth (forward + 1) (reverse - 1) inDepth ql

def compressList (node : Option Nat) : Attempt Quicklist := do
  if ql.len = 0 then return ql
  let last := ql.nodes.length - 1
  assert .quicklistCompress ((← readNode ql 0).recompress = false ∧ (← readNode ql last).recompress = false)
  if ql.compress = 0 ∨ ql.len < ql.compress * 2 then return ql
  match ← compressLoop setup node ql.compress 0 last false ql with
  | (ql, none) => return ql
  | (ql, some (forward, reverse, inDepth)) => do
      let ql ← (match node with
        | some index => if inDepth then return ql else quicklistCompressNode setup ql index
        | none => return ql)
      let ql ← quicklistCompressNode setup ql forward
      quicklistCompressNode setup ql reverse

/-- The macro compresses a marked node without a check of the depth. -/
def quicklistCompress : Attempt Quicklist := do
  if (← readNode ql index).recompress then quicklistCompressNode setup ql index
  else compressList setup ql (some index)

def quicklistRecompressOnly : Attempt Quicklist := do
  if (← readNode ql index).recompress then quicklistCompressNode setup ql index else return ql
end Compression

section Limits
def optimizationLevel : List Nat := [4096, 8192, 16384, 32768, 65536]

/-- The size limit and the count limit. At most one of them is set. -/
def quicklistNodeLimit (fill : Int) : Option Nat × Option Nat :=
  if fill ≥ 0 then (none, some (if fill = 0 then 1 else fill.toNat))
  else (optimizationLevel[min ((-fill).toNat - 1) (optimizationLevel.length - 1)]?, none)

/-- The last case is `redis_unreachable`. -/
def quicklistNodeExceedsLimit (fill : Int) (newSz newCount : Nat) : Bool :=
  match quicklistNodeLimit fill with
  | (some szLimit, _) => decide (newSz > szLimit)
  | (none, some countLimit) => decide (newSz > sizeSafetyLimit) || decide (newCount > countLimit)
  | (none, none) => true

variable (setup : Setup)

def quicklistNodeAllowInsert (node : Option QuicklistNode) (fill : Int) (sz : Nat) : Bool :=
  match node with
  | none => false
  | some node =>
    if node.container = .plain ∨ isLargeElement setup sz then false
    else !quicklistNodeExceedsLimit fill (node.sz + sz + sizeEstimateOverhead) (node.count + 1)

/-- The function `_quicklistNodeAllowMerge`. The merged size is an `unsigned int`. -/
def quicklistNodeAllowMerge (a b : Option QuicklistNode) (fill : Int) : Bool :=
  match a, b with
  | some a, some b =>
    if a.container = .plain ∨ b.container = .plain then false
    else !quicklistNodeExceedsLimit fill ((a.sz + b.sz + 2 ^ 64 - 7) % 2 ^ 32) (a.count + b.count)
  | _, _ => false
end Limits
end Redis.NodeList

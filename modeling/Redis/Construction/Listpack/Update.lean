/-
This file embeds the functions of `listpack.c` that change a listpack.
A block has the size that its allocation asked for, so `lp_malloc_size` is the length
of the memory.
-/

import Redis.Construction.Listpack.Access

namespace Redis.Listpack
open Foundation

def lpNew (capacity : Nat) : Memory :=
  leBytes 4 (lpHdrSize + 1) ++ leBytes 2 0 ++ [lpEof] ++
    List.replicate (max capacity (lpHdrSize + 1) - (lpHdrSize + 1)) 0

variable (lp : Memory) (p : Nat)

def lpShrinkToFit : Checked Memory := do
  let size ← lpGetTotalBytes lp
  if size < lp.length then return zrealloc lp size else return lp

/-- The positions `LP_BEFORE`, `LP_AFTER`, and `LP_REPLACE`. -/
inductive LpWhere where
  | before
  | after
  | replace
  deriving DecidableEq, Repr

/-- The element arguments of `lpInsert`: a string, an encoded integer, or neither. -/
inductive LpElement where
  | string (elestr : List UInt8)
  | integer (eleint : List UInt8)
  | delete
  deriving DecidableEq, Repr

def LpElement.bytes : LpElement → List UInt8
  | .string elestr => (lpEncodeGetType elestr).1.getD (lpEncodeString elestr)
  | .integer eleint => eleint
  | .delete => []

def LpElement.enclen : LpElement → Nat
  | .string elestr => (lpEncodeGetType elestr).2
  | .integer eleint => eleint.length
  | .delete => 0

def LpElement.backlen : LpElement → List UInt8
  | .delete => []
  | element => lpEncodeBacklen element.enclen

/-- A known element count changes by a difference, and an unknown one stays unknown.
The header keeps the low 16 bits. -/
def updateNumElements (change : Int) : Checked Memory := do
  let numele ← lpGetNumElements lp
  if numele ≠ lpHdrNumeleUnknown then lpSetNumElements lp ((numele + change) % 2 ^ 16).toNat
  else return lp

/-- An insertion after an element is an insertion before the next one. -/
def insertPosition (position : LpWhere) : Checked (Nat × LpWhere) := do
  if position = .after then
    let p ← lpSkip lp p
    require .lpAssertIntegrity (p ≥ lpHdrSize ∧ p < (← lpGetTotalBytes lp))
    return (p, .before)
  else return (p, position)

/-- The length of the replaced entry is a `uint32_t`. -/
def replacedLength (position : LpWhere) : Checked Nat := do
  if position = .replace then
    let size ← lpCurrentEncodedSizeUnsafe lp p
    let replaced := (size + (lpEncodeBacklen size).length) % 2 ^ 32
    require .lpAssertIntegrityLen (p ≥ lpHdrSize ∧ p + replaced < (← lpGetTotalBytes lp))
    return replaced
  else return 0

/-- The result is `none` for `NULL`. Otherwise it holds the listpack and `*newp`. -/
def lpInsert (element : LpElement) (p : Nat) (position : LpWhere) : Checked (Option (Memory × Option Nat)) := do
  let (p, position) ← insertPosition lp p (if element = .delete then .replace else position)
  let enclen := element.enclen
  let backlen := element.backlen
  let old ← lpGetTotalBytes lp
  let replaced ← replacedLength lp p position
  let new := old + enclen + backlen.length - replaced
  if new > uint32Max then return none
  let lp := if new > old ∧ new > lp.length then zrealloc lp new else lp
  let lp ← memmove lp (p + enclen + backlen.length) (p + replaced) (old - p - replaced)
  let lp := if new < old then zrealloc lp new else lp
  let newp ← (if element = .delete then do
      return if (← readCell lp p) = lpEof then none else some p
    else return some p)
  let lp ← (if element = .delete then return lp
    else do writeBytes (← writeBytes lp p element.bytes) (p + enclen) backlen)
  let lp ← (if position ≠ .replace ∨ element = .delete then
      updateNumElements lp (if element = .delete then -1 else 1)
    else return lp)
  return some (← lpSetTotalBytes lp new, newp)

def lpInsertString (lp s : List UInt8) (p : Nat) (position : LpWhere) : Checked (Option (Memory × Option Nat)) :=
  lpInsert lp (.string s) p position

def lpInsertInteger (lval : Int) (p : Nat) (position : LpWhere) : Checked (Option (Memory × Option Nat)) :=
  lpInsert lp (.integer (lpEncodeIntegerGetType lval)) p position

def lpAppend (lp ele : List UInt8) : Checked (Option Memory) := do
  let eofptr := (← lpGetTotalBytes lp) - 1
  return (← lpInsert lp (.string ele) eofptr .before).map Prod.fst

def lpPrepend (lp s : List UInt8) : Checked (Option Memory) := do
  match ← lpFirst lp with
  | none => lpAppend lp s
  | some p => return (← lpInsert lp (.string s) p .before).map Prod.fst

def lpReplace (s : List UInt8) : Checked (Option (Memory × Option Nat)) := lpInsert lp (.string s) p .replace

def lpDelete : Checked (Option (Memory × Option Nat)) := lpInsert lp .delete p .replace

/-- The loop of `lpDeleteRangeWithEntry` returns the first kept entry and the deleted count. -/
def deleteLoop (lp : Memory) (bytes : Nat) : Nat → Nat → Nat → Checked (Nat × Nat)
  | 0, tail, deleted => .ok (tail, deleted)
  | num + 1, tail, deleted => do
      let tail ← lpSkip lp tail
      if (← readCell lp tail) = lpEof then return (tail, deleted + 1)
      lpAssertValidEntry lp bytes tail
      deleteLoop lp bytes num tail (deleted + 1)

/-- The result is the listpack and `*p`. -/
def lpDeleteRangeWithEntry (p num : Nat) : Checked (Memory × Option Nat) := do
  let bytes ← lpBytes lp
  if num = 0 then return (lp, some p)
  let (tail, deleted) ← deleteLoop lp bytes num p 0
  let lp ← memmove lp p tail (bytes - tail)
  let lp ← lpSetTotalBytes lp (bytes - (tail - p))
  let lp ← updateNumElements lp (-deleted)
  let lp ← lpShrinkToFit lp
  return (lp, if (← readCell lp p) = lpEof then none else some p)

def lpDeleteRange (index : Int) (num : Nat) : Checked Memory := do
  let numele ← lpGetNumElements lp
  if num = 0 then return lp
  match ← lpSeek lp index with
  | none => return lp
  | some p =>
    let index := if numele ≠ lpHdrNumeleUnknown ∧ index < 0 then numele + index else index
    if numele ≠ lpHdrNumeleUnknown ∧ numele - index ≤ num then
      let lp ← writeBytes lp p [lpEof]
      let lp ← lpSetTotalBytes lp (p + 1)
      let lp ← lpSetNumElements lp index.toNat
      lpShrinkToFit lp
    else return (← lpDeleteRangeWithEntry lp p num).1

def batchLoop (lpEnd : Nat) : List Nat → Memory → Nat → Checked (Memory × Nat)
  | [], lp, dst => .ok (lp, dst)
  | skip :: rest, lp, dst => do
      require .lpBatchDelete ((← readCell lp skip) ≠ lpEof)
      let keepStart ← lpSkip lp skip
      let keepEnd := rest.head?.getD lpEnd
      if rest ≠ [] ∧ keepStart = keepEnd then batchLoop lpEnd rest lp dst
      else do
        require .lpBatchDelete (keepEnd > keepStart)
        let lp ← memmove lp dst keepStart (keepEnd - keepStart)
        batchLoop lpEnd rest lp (dst + (keepEnd - keepStart))

def lpBatchDelete (ps : List Nat) : Checked Memory := do
  match ps with
  | [] => return lp
  | first :: _ =>
    let total ← lpGetTotalBytes lp
    require .lpBatchDelete ((← readCell lp (total - 1)) = lpEof)
    let (lp, dst) ← batchLoop total ps lp first
    let total := total - (total - dst)
    require .lpBatchDelete ((← readCell lp (total - 1)) = lpEof)
    let lp ← lpSetTotalBytes lp total
    let lp ← updateNumElements lp (-ps.length)
    lpShrinkToFit lp

/-- The merge of two different listpacks reuses the larger block. -/
def lpMerge (first second : Memory) : Checked Memory := do
  let firstBytes ← lpBytes first
  let (firstLen, first) ← lpLength first
  let secondBytes ← lpBytes second
  let (secondLen, second) ← lpLength second
  let lpbytes := firstBytes + secondBytes - lpHdrSize - 1
  require .lpMerge (lpbytes < uint32Max)
  let lplength := min (firstLen + secondLen) lpHdrNumeleUnknown
  let target ← (if firstBytes ≥ secondBytes then do
      let source ← readBytes second lpHdrSize (secondBytes - lpHdrSize)
      writeBytes (zrealloc first lpbytes) (firstBytes - 1) source
    else do
      let target ← memmove (zrealloc second lpbytes) (firstBytes - 1) lpHdrSize (secondBytes - lpHdrSize)
      writeBytes target 0 (← readBytes first 0 (firstBytes - 1)))
  let target ← lpSetNumElements target lplength
  lpSetTotalBytes target lpbytes

/-- A string that fits in the `uint32_t` length argument. -/
abbrev Payload := { s : List UInt8 // s.length < 2 ^ 32 }

/-- The operations on one listpack. An index selects the element by `lpSeek`.
The call of `lpLength` is one of them because it can change the header. -/
inductive LpOp where
  | insertString (s : Payload) (index : Int) (position : LpWhere)
  | insertInteger (lval : Int64) (index : Int) (position : LpWhere)
  | append (s : Payload)
  | prepend (s : Payload)
  | replace (index : Int) (s : Payload)
  | delete (index : Int)
  | deleteRangeWithEntry (index : Int) (num : Nat)
  | deleteRange (index : Int) (num : Nat)
  | batchDelete (indices : List Nat)
  | length

/-- A caller keeps its listpack when the sought element does not exist. -/
def atElement (index : Int) (update : Nat → Checked (Option Memory)) : Checked (Option Memory) := do
  match ← lpSeek lp index with
  | none => return some lp
  | some p => update p

/-- The result is `none` for `NULL`. A batch names existing elements in order. -/
def applyOp : LpOp → Checked (Option Memory)
  | .insertString s index position => atElement lp index fun p =>
    return (← lpInsertString lp s.1 p position).map Prod.fst
  | .insertInteger lval index position => atElement lp index fun p =>
    return (← lpInsertInteger lp lval.toInt p position).map Prod.fst
  | .append s => lpAppend lp s.1
  | .prepend s => lpPrepend lp s.1
  | .replace index s => atElement lp index fun p => return (← lpReplace lp p s.1).map Prod.fst
  | .delete index => atElement lp index fun p => return (← lpDelete lp p).map Prod.fst
  | .deleteRangeWithEntry index num => atElement lp index fun p => return some (← lpDeleteRangeWithEntry lp p num).1
  | .deleteRange index num => return some (← lpDeleteRange lp index num)
  | .batchDelete indices => do
      let ps ← indices.mapM fun index : Nat => lpSeek lp (index : Int)
      if indices.Pairwise (· < ·) ∧ ps.all Option.isSome then
        return some (← lpBatchDelete lp ps.reduceOption)
      else return some lp
  | .length => return some (← lpLength lp).2

/-- The operations on all listpacks of a caller. -/
inductive PoolOp where
  | new (capacity : Nat)
  | apply (index : Nat) (op : LpOp)
  | merge (first second : Nat)

/-- A run ends when an operation returns `NULL`. A merge keeps its result in the first
place and drops the second listpack. -/
def poolStep (pool : List Memory) : PoolOp → Checked (List Memory × Unit)
  | .new capacity => return (pool ++ [lpNew capacity], ())
  | .apply index op =>
    match pool[index]? with
    | none => return (pool, ())
    | some lp => do
        match ← applyOp lp op with
        | none => throw .nullPointer
        | some lp => return (pool.set index lp, ())
  | .merge first second =>
    if first = second then return (pool, ())
    else match pool[first]?, pool[second]? with
      | some lp, some other => return ((pool.set first (← lpMerge lp other)).eraseIdx second, ())
      | _, _ => return (pool, ())

end Redis.Listpack

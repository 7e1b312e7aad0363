/-
This file embeds the incrementally rehashed hash table of `dict.c`.
A bucket is the list of its chained entries.
A table without buckets is the `NULL` table.
-/

import Redis.Construction.Fault
import Redis.Foundation.Outcome

namespace Redis.Dictionary

/-- A dictionary has two tables. -/
instance neZeroTwo : NeZero 2 := ⟨Nat.two_pos.ne'⟩

/-- Hashes, masks, and scan cursors are `unsigned long` values. -/
abbrev Word := BitVec 64

/-- The values of the global `dict_can_resize`. -/
inductive DictResizeEnable where
  | enable
  | avoid
  | forbid
  deriving DecidableEq, Repr

/-- The callbacks of a dictionary. The expansion callback receives the requested bytes
and the numerator and denominator of the used ratio. -/
structure DictType (K : Type) where
  hashFunction : K → Word
  expandAllowed : Option (Nat → Nat → Nat → Bool)

/-- One of the two tables: `ht_table[i]`, `ht_used[i]`, and `ht_size_exp[i]`. -/
structure HashTable (K V : Type) where
  table : List (List (K × V))
  used : Nat
  sizeExp : Int
  deriving DecidableEq, Repr

/-- The fields of `struct dict` that the operations read. -/
structure Dict (K V : Type) where
  ht0 : HashTable K V
  ht1 : HashTable K V
  rehashidx : Int
  pauserehash : BitVec 16
  deriving DecidableEq, Repr

variable {K V : Type}

def dictHtInitialExp : Nat := 2

def dictHtInitialSize : Nat := 2 ^ dictHtInitialExp

def dictForceResizeRatio : Nat := 5

def dicthtSize (exp : Int) : Nat := if exp = -1 then 0 else 2 ^ exp.toNat

def dicthtSizeMask (exp : Int) : Word := if exp = -1 then 0 else BitVec.ofNat 64 (dicthtSize exp - 1)

variable (type : DictType K) (mode : DictResizeEnable) (d : Dict K V)

def dictSize : Nat := d.ht0.used + d.ht1.used

def dictIsRehashing : Prop := d.rehashidx ≠ -1

instance (d : Dict K V) : Decidable (dictIsRehashing d) := inferInstanceAs (Decidable (_ ≠ _))

def dictPauseRehashing : Dict K V := { d with pauserehash := d.pauserehash + 1 }

def dictResumeRehashing : Dict K V := { d with pauserehash := d.pauserehash - 1 }

def dictReset : HashTable K V := ⟨[], 0, -1⟩

def dictCreate : Dict K V := ⟨dictReset, dictReset, -1, 0⟩

/-- The function `_dictNextExp`. The bit length of `size - 1` is the word size less the
leading zeros that `__builtin_clzl` counts. -/
def dictNextExp (size : Nat) : Nat :=
  if size ≤ dictHtInitialSize then dictHtInitialExp
  else if size ≥ 2 ^ 63 - 1 then 63
  else (size - 1).log2 + 1

/-- The function `_dictExpand`. The flag reports `DICT_OK`. -/
def dictExpand (size : Nat) : Dict K V × Bool :=
  if dictIsRehashing d ∨ d.ht0.used > size then (d, false)
  else
    let exp := dictNextExp size
    let newsize := 2 ^ exp
    if newsize < size ∨ newsize * 8 % 2 ^ 64 < newsize then (d, false)
    else if (exp : Int) = d.ht0.sizeExp then (d, false)
    else
      let fresh : HashTable K V := ⟨List.replicate newsize [], 0, exp⟩
      if d.ht0.table = [] then ({ d with ht0 := fresh }, true)
      else ({ d with ht1 := fresh, rehashidx := 0 }, true)

def dictResize : Dict K V × Bool :=
  if mode ≠ .enable ∨ dictIsRehashing d then (d, false)
  else dictExpand d (max d.ht0.used dictHtInitialSize)

/-- The inner loop of `dictRehash` skips empty buckets. It returns the new `rehashidx`,
the visits that remain, and whether the visit limit ended the call. -/
def skipEmptyBuckets : List (List (K × V)) → Nat → BitVec 32 → Checked (Nat × BitVec 32 × Bool)
  | [], _, _ => .error .outOfBounds
  | [] :: rest, index, visits =>
    if visits - 1 = 0 then .ok (index + 1, visits - 1, true)
    else skipEmptyBuckets rest (index + 1) (visits - 1)
  | (_ :: _) :: _, index, visits => .ok (index, visits, false)

/-- The new bucket of a moved entry. A smaller table masks the old bucket index. -/
def rehashTarget (index : Nat) (key : K) : Nat :=
  if d.ht1.sizeExp > d.ht0.sizeExp then
    (type.hashFunction key &&& dicthtSizeMask d.ht1.sizeExp).toNat
  else (BitVec.ofNat 64 index &&& dicthtSizeMask d.ht1.sizeExp).toNat

/-- An entry becomes the first entry of a bucket. -/
def pushEntry (ht : HashTable K V) (bucket : Nat) (entry : K × V) : Checked (HashTable K V) := do
  let chain ← readCell ht.table bucket
  return { ht with table := ht.table.set bucket (entry :: chain), used := ht.used + 1 }

def moveChain (type : DictType K) (index : Nat) : List (K × V) → Dict K V → Checked (Dict K V)
  | [], d => .ok d
  | entry :: chain, d => do
      let ht1 ← pushEntry d.ht1 (rehashTarget type d index entry.1) entry
      moveChain type index chain { d with ht1 := ht1, ht0 := { d.ht0 with used := d.ht0.used - 1 } }

/-- The outer loop of `dictRehash`. The flag reports the early return. -/
def rehashLoop (type : DictType K) : Nat → Dict K V → BitVec 32 → Checked (Dict K V × Bool)
  | 0, d, _ => .ok (d, false)
  | n + 1, d, visits =>
    if d.ht0.used = 0 then .ok (d, false)
    else do
      require .dictRehash (dicthtSize d.ht0.sizeExp > d.rehashidx.toNat)
      let (index, visits, stopped) ←
        skipEmptyBuckets (d.ht0.table.drop d.rehashidx.toNat) d.rehashidx.toNat visits
      if stopped then return ({ d with rehashidx := index }, true)
      let chain ← readCell d.ht0.table index
      let moved ← moveChain type index chain d
      rehashLoop type n { moved with
        ht0 := { moved.ht0 with table := moved.ht0.table.set index [] }
        rehashidx := index + 1 } visits

/-- The new table replaces the old table when no entry is left to move. -/
def rehashFinish : Dict K V × Bool :=
  if d.ht0.used = 0 then ({ d with ht0 := d.ht1, ht1 := dictReset, rehashidx := -1 }, false)
  else (d, true)

def dictRehash (n : Nat) : Checked (Dict K V × Bool) :=
  let s0 := dicthtSize d.ht0.sizeExp
  let s1 := dicthtSize d.ht1.sizeExp
  if mode = .forbid ∨ ¬ dictIsRehashing d then .ok (d, false)
  else if mode = .avoid ∧ ((s1 > s0 ∧ s1 / s0 < dictForceResizeRatio) ∨
      (s1 < s0 ∧ s0 / s1 < dictForceResizeRatio)) then .ok (d, false)
  else do
    let (d, early) ← rehashLoop type n d (BitVec.ofNat 32 (n * 10))
    if early then return (d, true)
    return rehashFinish d

/-- The loop of `dictRehashMilliseconds`, which the clock ends after some rounds. -/
def rehashRounds : Nat → Dict K V → Checked (Dict K V × Nat)
  | 0, d => .ok (d, 0)
  | rounds + 1, d => do
      let (d, more) ← dictRehash type mode d 100
      if !more then return (d, 0)
      let (d, rehashes) ← rehashRounds rounds d
      return (d, rehashes + 100)

def dictRehashMilliseconds (rounds : Nat) : Checked (Dict K V × Nat) :=
  if 0 < d.pauserehash.toInt then .ok (d, 0) else rehashRounds type mode rounds d

/-- The function `_dictRehashStep`, called only while rehashing. -/
def dictRehashStep : Checked (Dict K V) :=
  if dictIsRehashing d ∧ d.pauserehash = 0 then return (← dictRehash type mode d 1).1
  else .ok d

def dictTypeExpandAllowed : Bool :=
  match type.expandAllowed with
  | none => true
  | some allowed => allowed (2 ^ dictNextExp (d.ht0.used + 1) * 8) d.ht0.used (dicthtSize d.ht0.sizeExp)

/-- The function `_dictExpandIfNeeded`. The flag reports `DICT_OK`. -/
def dictExpandIfNeeded : Dict K V × Bool :=
  let size := dicthtSize d.ht0.sizeExp
  if dictIsRehashing d then (d, true)
  else if size = 0 then dictExpand d dictHtInitialSize
  else if (mode = .enable ∧ d.ht0.used ≥ size) ∨ (mode ≠ .forbid ∧ d.ht0.used / size > dictForceResizeRatio) then
    if dictTypeExpandAllowed type d then dictExpand d (d.ht0.used + 1) else (d, true)
  else (d, true)

/-- The place of an entry: its table, its bucket, and its position in the chain. -/
structure DictLink where
  table : Fin 2
  bucket : Nat
  position : Nat
  deriving DecidableEq, Repr

def Dict.tableAt (index : Fin 2) : HashTable K V := if index = 0 then d.ht0 else d.ht1

def Dict.setTable (index : Fin 2) (ht : HashTable K V) : Dict K V :=
  if index = 0 then { d with ht0 := ht } else { d with ht1 := ht }

/-- The bucket `hash & DICTHT_SIZE_MASK(exp)`. -/
def bucketIndex (exp : Int) (key : K) : Nat := (type.hashFunction key &&& dicthtSizeMask exp).toNat

def unlinkEntry (link : DictLink) : Checked (Dict K V) := do
  let ht := d.tableAt link.table
  let chain ← readCell ht.table link.bucket
  return d.setTable link.table { ht with
    table := ht.table.set link.bucket (chain.eraseIdx link.position), used := ht.used - 1 }

/-- The function `dictSetVal` on the entry at a link. -/
def dictSetVal (link : DictLink) (val : V) : Checked (Dict K V) := do
  let ht := d.tableAt link.table
  let chain ← readCell ht.table link.bucket
  let entry ← readCell chain link.position
  return d.setTable link.table { ht with
    table := ht.table.set link.bucket (chain.set link.position (entry.1, val)) }

/-- An insertion finds a bucket, or the existing entry, or a failed expansion. -/
inductive DictPosition where
  | bucket (index : Nat)
  | existing (link : DictLink)
  | failed
  deriving DecidableEq, Repr

def dictEntryBytes : Nat := 24

variable (key : K) (val : V)

/-- The caller stores the value in the entry that the source returns. All entries are
disjoint blocks of a 64-bit address space, so `zmalloc` stops the process at the latest
when they no longer fit. -/
def dictInsertAtPosition (bucket : Nat) : Checked (Dict K V) := do
  let index : Fin 2 := if dictIsRehashing d then 1 else 0
  let ht := d.tableAt index
  require .dictInsertAtPosition (bucket ≤ (dicthtSizeMask ht.sizeExp).toNat)
  if (dictSize d + 1) * dictEntryBytes > 2 ^ 64 then throw .outOfMemory
  return d.setTable index (← pushEntry ht bucket (key, val))

def dictTwoPhaseUnlinkFree (found : Option (DictLink × V)) : Checked (Dict K V) :=
  match found with
  | none => .ok d
  | some (link, _) => return dictResumeRehashing (← unlinkEntry d link)

def dictEmpty (_ : Dict K V) : Dict K V := ⟨dictReset, dictReset, -1, 0⟩

/-- The loop body of `rev` swaps neighbouring groups of `s` bits. -/
def revStep (state : Word × Word) (s : Nat) : Word × Word :=
  let mask := state.1 ^^^ (state.1 <<< s)
  (mask, ((state.2 >>> s) &&& mask) ||| ((state.2 <<< s) &&& ~~~mask))

def rev (v : Word) : Word := ([32, 16, 8, 4, 2, 1].foldl revStep (~~~0, v)).2

/-- The cursor increment sets the unmasked bits and counts on the reversed bits. -/
def advanceCursor (mask v : Word) : Word := rev (rev (v ||| ~~~mask) + 1)

def scanExpansions (table : List (List (K × V))) (m0 m1 : Word) : Nat → Word → Checked (List (K × V) × Word)
  | 0, _ => .error .outOfFuel
  | fuel + 1, v => do
      let chain ← readCell table (v &&& m1).toNat
      let v := advanceCursor m1 v
      if v &&& (m0 ^^^ m1) = 0 then return (chain, v)
      let (rest, v) ← scanExpansions table m0 m1 fuel v
      return (chain ++ rest, v)

/-- The function `dictScan` returns the entries that it passes to the callback and the
new cursor. The larger table bounds the number of expansions. -/
def dictScan (v : Word) : Checked (List (K × V) × Word) :=
  if dictSize d = 0 then .ok ([], 0)
  else if ¬ dictIsRehashing d then do
    let m0 := dicthtSizeMask d.ht0.sizeExp
    let chain ← readCell d.ht0.table (v &&& m0).toNat
    return (chain, advanceCursor m0 v)
  else do
    let swapped := dicthtSize d.ht0.sizeExp > dicthtSize d.ht1.sizeExp
    let small := if swapped then d.ht1 else d.ht0
    let large := if swapped then d.ht0 else d.ht1
    let m0 := dicthtSizeMask small.sizeExp
    let m1 := dicthtSizeMask large.sizeExp
    let chain ← readCell small.table (v &&& m0).toNat
    let (rest, v) ← scanExpansions large.table m0 m1 (dicthtSize large.sizeExp) v
    return (chain ++ rest, v)

inductive DictOp (K V : Type) where
  | add (key : K) (val : V)
  | replace (key : K) (val : V)
  | delete (key : K)
  | unlink (key : K)
  | twoPhaseUnlink (key : K)
  | find (key : K)
  | expand (size : Nat)
  | resize
  | rehash (n : Nat)
  | empty
  | pauseRehashing
  | resumeRehashing
  | setResizeEnabled (mode : DictResizeEnable)
  deriving DecidableEq, Repr

/-- What an operation tells its caller about the stored keys. -/
inductive DictReply (V : Type) where
  | done
  | status (success : Bool)
  | entry (val : Option V)
  deriving DecidableEq, Repr

/-- A dictionary together with the global `dict_can_resize`. -/
structure DictState (K V : Type) where
  dict : Dict K V
  mode : DictResizeEnable
  deriving DecidableEq, Repr

variable [DecidableEq K]

def searchTable (index : Fin 2) (key : K) : Checked (Option (DictLink × V)) := do
  let bucket := bucketIndex type (d.tableAt index).sizeExp key
  let chain ← readCell (d.tableAt index).table bucket
  match chain.findIdx? (fun entry => entry.1 = key) with
  | none => return none
  | some position =>
    let entry ← readCell chain position
    return some (⟨index, bucket, position⟩, entry.2)

/-- The lookup loop of every operation: table 0, then table 1 while rehashing. -/
def searchTables : Checked (Option (DictLink × V)) := do
  match ← searchTable type d 0 key with
  | some found => return some found
  | none => if dictIsRehashing d then searchTable type d 1 key else return none

def dictFindPositionForInsert : Checked (Dict K V × DictPosition) := do
  let d ← dictRehashStep type mode d
  let (d, expanded) := dictExpandIfNeeded type mode d
  if ¬ expanded then return (d, .failed)
  match ← searchTables type d key with
  | some (link, _) => return (d, .existing link)
  | none =>
    let index : Fin 2 := if dictIsRehashing d then 1 else 0
    return (d, .bucket (bucketIndex type (d.tableAt index).sizeExp key))

/-- The function `dictAdd`. The flag reports `DICT_OK`. -/
def dictAdd : Checked (Dict K V × Bool) := do
  match ← dictFindPositionForInsert type mode d key with
  | (d, .bucket bucket) => return (← dictInsertAtPosition d key val bucket, true)
  | (d, .existing _) => return (d, false)
  | (d, .failed) => return (d, false)

/-- The function `dictReplace`. The flag reports that the key was added. A failed
expansion leaves `existing` at `NULL`, which the source then dereferences. -/
def dictReplace : Checked (Dict K V × Bool) := do
  match ← dictFindPositionForInsert type mode d key with
  | (d, .bucket bucket) => return (← dictInsertAtPosition d key val bucket, true)
  | (d, .existing link) => return (← dictSetVal d link val, false)
  | (_, .failed) => throw .nullPointer

def dictGenericDelete : Checked (Dict K V × Option V) := do
  if dictSize d = 0 then return (d, none)
  let d ← dictRehashStep type mode d
  match ← searchTables type d key with
  | none => return (d, none)
  | some (link, val) => return (← unlinkEntry d link, some val)

def dictDelete : Checked (Dict K V × Bool) := do
  let (d, entry) ← dictGenericDelete type mode d key
  return (d, entry.isSome)

def dictUnlink : Checked (Dict K V × Option V) := dictGenericDelete type mode d key

def dictFind : Checked (Dict K V × Option V) := do
  if dictSize d = 0 then return (d, none)
  let d ← dictRehashStep type mode d
  return (d, (← searchTables type d key).map Prod.snd)

/-- The first phase pauses rehashing when it finds the entry. -/
def dictTwoPhaseUnlinkFind : Checked (Dict K V × Option (DictLink × V)) := do
  if dictSize d = 0 then return (d, none)
  let d ← dictRehashStep type mode d
  match ← searchTables type d key with
  | none => return (d, none)
  | some found => return (dictPauseRehashing d, some found)

def dictStep (state : DictState K V) : DictOp K V → Checked (DictState K V × DictReply V)
  | .add key val => do
      let (d, success) ← dictAdd type state.mode state.dict key val
      return ({ state with dict := d }, .status success)
  | .replace key val => do
      let (d, added) ← dictReplace type state.mode state.dict key val
      return ({ state with dict := d }, .status added)
  | .delete key => do
      let (d, success) ← dictDelete type state.mode state.dict key
      return ({ state with dict := d }, .status success)
  | .unlink key => do
      let (d, val) ← dictUnlink type state.mode state.dict key
      return ({ state with dict := d }, .entry val)
  | .twoPhaseUnlink key => do
      let (d, found) ← dictTwoPhaseUnlinkFind type state.mode state.dict key
      let d ← dictTwoPhaseUnlinkFree d found
      return ({ state with dict := d }, .entry (found.map Prod.snd))
  | .find key => do
      let (d, val) ← dictFind type state.mode state.dict key
      return ({ state with dict := d }, .entry val)
  | .expand size => return ({ state with dict := (dictExpand state.dict size).1 }, .done)
  | .resize => return ({ state with dict := (dictResize state.mode state.dict).1 }, .done)
  | .rehash n => do
      let (d, _) ← dictRehash type state.mode state.dict n
      return ({ state with dict := d }, .done)
  | .empty => return ({ state with dict := dictEmpty state.dict }, .done)
  | .pauseRehashing => return ({ state with dict := dictPauseRehashing state.dict }, .done)
  | .resumeRehashing => return ({ state with dict := dictResumeRehashing state.dict }, .done)
  | .setResizeEnabled mode => return ({ state with mode := mode }, .done)

/-- What a caller of `dictScan` saw: the dictionary at each call, the entries that the
callback received, and the last cursor. -/
structure ScanTrace (K V : Type) where
  visited : List (Dict K V)
  emitted : List (K × V)
  cursor : Word
  deriving DecidableEq, Repr

/-- A caller passes the returned cursor to the next `dictScan` until it is zero. Each gap
holds the operations between two calls, and the last call follows the last gap. -/
def scanRun (type : DictType K) : List (List (DictOp K V)) → DictState K V → Word → Checked (ScanTrace K V)
  | [], state, v => do
      let (emitted, v) ← dictScan state.dict v
      return ⟨[state.dict], emitted, v⟩
  | gap :: gaps, state, v => do
      let (emitted, v) ← dictScan state.dict v
      if v = 0 then return ⟨[state.dict], emitted, v⟩
      let (next, _) ← Foundation.run (dictStep type) state gap
      let rest ← scanRun type gaps next v
      return ⟨state.dict :: rest.visited, emitted ++ rest.emitted, rest.cursor⟩

end Redis.Dictionary

/-
This file embeds the set type of `t_set.c` with its three encodings.
-/

import Redis.Construction.DictIterator
import Redis.Construction.Intset
import Redis.Construction.Listpack.Search

namespace Redis.SetType
open Foundation Redis.Dictionary Redis.IntegerSet Redis.Listpack

abbrev Sds := List UInt8

/-- The encoding of a set and what `ptr` points to. -/
inductive SetObject where
  | intset (is : Intset)
  | listpack (lp : Memory)
  | ht (d : Dict Sds Unit)

/-- The fields of `server` that the set type reads, and the global `dict_can_resize`. -/
structure Server where
  setMaxIntsetEntries : Nat
  setMaxListpackEntries : Nat
  setMaxListpackValue : Nat
  dictCanResize : DictResizeEnable
  deriving DecidableEq, Repr

/-- The function `string2ll` of `util.c` has the body of `lpStringToInt64`. -/
def string2ll (s : Sds) : Option Int := lpStringToInt64 s

def createIntsetObject : SetObject := .intset intsetNew

def createSetListpackObject : SetObject := .listpack (lpNew 0)

/-- An empty hash table of the type `setDictType`. -/
def createSetObject : SetObject := .ht dictCreate

def setTypeCreate (server : Server) (value : Sds) (sizeHint : Nat) : SetObject :=
  if (string2ll value).isSome ∧ sizeHint ≤ server.setMaxIntsetEntries then createIntsetObject
  else if sizeHint ≤ server.setMaxListpackEntries then createSetListpackObject
  else .ht (dictExpand dictCreate sizeHint).1

/-- The position of an iterator in each encoding. -/
inductive SetTypeIterator where
  | intset (ii : Nat)
  | listpack (lpi : Option Nat)
  | ht (di : DictIterator Sds Unit)

def setTypeInitIterator : SetObject → SetTypeIterator
  | .intset _ => .intset 0
  | .listpack _ => .listpack none
  | .ht _ => .ht dictGetIterator

/-- The next position of an iterator in a listpack. -/
def listpackNext (lp : Memory) : Option Nat → Checked (Option Nat)
  | none => lpFirst lp
  | some p => lpNext lp p

/-- The next member and the advanced iterator. An iterator does not outlive a conversion of
its set. -/
def setTypeNext : SetObject → SetTypeIterator → Checked (Option (LpEntry × SetTypeIterator))
  | .intset is, .intset ii => do
      if ii < is.length then return some (.integer (← intsetGet is ii), .intset (ii + 1)) else return none
  | .listpack lp, .listpack lpi => do
      match ← listpackNext lp lpi with
      | none => return none
      | some p => return some (← lpGetValue lp p, .listpack (some p))
  | .ht d, .ht di => do
      match ← dictNext d di with
      | none => return none
      | some (entry, di) => return some (.string entry.1, .ht di)
  | _, _ => throw .outOfBounds

/-- The strings of `setTypeNextObject`. -/
def entryText : LpEntry → Checked Sds
  | .string s => .ok s
  | .integer value => ll2string longStrSize value

/-- A loop over the members with `setTypeNext`. -/
def forMembers {A : Type} (set : SetObject) (body : LpEntry → A → Checked A) : Nat → SetTypeIterator → A → Checked A
  | 0, _, _ => .error .outOfFuel
  | fuel + 1, si, acc => do
      match ← setTypeNext set si with
      | none => return acc
      | some (entry, si) => forMembers set body fuel si (← body entry acc)

/-- No encoding has more members than this. -/
def memberBound : SetObject → Nat
  | .intset is => is.length
  | .listpack lp => lp.length
  | .ht d => dictSize d

def iterate {A : Type} (set : SetObject) (body : LpEntry → A → Checked A) (acc : A) : Checked A :=
  forMembers set body (memberBound set + 1) (setTypeInitIterator set) acc

/-- A caller that collects the members. -/
def members (set : SetObject) : Checked (List Sds) :=
  iterate set (fun entry acc => return acc ++ [← entryText entry]) []

/-- The size, and the set with the header that `lpLength` updates. -/
def setTypeSize : SetObject → Checked (Nat × SetObject)
  | .intset is => .ok (is.length, .intset is)
  | .listpack lp => do
      let (length, lp) ← lpLength lp
      return (length, .listpack lp)
  | .ht d => .ok (dictSize d, .ht d)

variable (setDictType : DictType Sds) (server : Server)
variable (is : Intset) (set : SetObject) (cap : Nat)

def intsetMax : Checked Int := intsetGet is (is.length - 1)

def intsetMin : Checked Int := intsetGet is 0

/-- The target encodings of a conversion. -/
inductive Target where
  | listpack
  | ht
  deriving DecidableEq, Repr

def convertToHt : Checked (Dict Sds Unit) :=
  iterate set (fun entry d => do
    let (d, added) ← dictAdd setDictType server.dictCanResize d (← entryText entry) ()
    require .setTypeConvertAndExpand (added = true)
    return d) (dictExpand dictCreate cap).1

/-- The capacity of the new listpack. -/
def estimatedCapacity : Checked Nat :=
  match set with
  | .intset is => do
      if is.length > 0 then
        return max (lpEstimateBytesRepeatedInteger (← intsetMin is) cap)
          (lpEstimateBytesRepeatedInteger (← intsetMax is) cap)
      else return cap * 2
  | _ => return cap * 2

def convertToListpack : Checked Memory := do
  iterate set (fun entry lp =>
    match entry with
    | .string s => nonNull (lpAppend lp s)
    | .integer value => nonNull (lpAppendInteger lp value)) (lpNew (← estimatedCapacity set cap))

/-- The conversion with `panic` set. -/
def setTypeConvertAndExpand (enc : Target) (cap : Nat) : Checked SetObject := do
  match enc with
  | .ht => return .ht (← convertToHt setDictType server set cap)
  | .listpack => return .listpack (← convertToListpack set cap)

def setTypeConvert (enc : Target) : Checked SetObject := do
  let (size, set) ← setTypeSize set
  setTypeConvertAndExpand setDictType server set enc size

def setTypeMaybeConvert (sizeHint : Nat) : Checked SetObject :=
  match set with
  | .listpack _ =>
    if sizeHint > server.setMaxListpackEntries then setTypeConvertAndExpand setDictType server set .ht sizeHint
    else .ok set
  | .intset _ =>
    if sizeHint > server.setMaxIntsetEntries then setTypeConvertAndExpand setDictType server set .ht sizeHint
    else .ok set
  | .ht _ => .ok set

def intsetMaxEntries : Nat := if server.setMaxIntsetEntries ≥ 2 ^ 30 then 2 ^ 30 else server.setMaxIntsetEntries

/-- The argument is the intset of the set. -/
def maybeConvertIntset : Checked SetObject :=
  if is.length > intsetMaxEntries server then setTypeConvert setDictType server (.intset is) .ht
  else .ok (.intset is)

/-- The integer of a member that is known to be one. -/
def entryInteger : LpEntry → Checked Int
  | .string s =>
    match string2ll s with
    | some value => .ok value
    | none => .error (.assertion .maybeConvertToIntset)
  | .integer value => .ok value

def maybeConvertToIntset : Checked SetObject :=
  match set with
  | .intset _ => .ok set
  | _ => do
      let (size, set) ← setTypeSize set
      if size > intsetMaxEntries server then return set
      let is ← iterate set (fun entry is => do
        let (is, success) ← intsetAdd is (← entryInteger entry)
        require .maybeConvertToIntset (success = true)
        return is) intsetNew
      return .intset is

/-- The forms of a value argument: an sds string, a buffer, or an integer with `str` at `NULL`. -/
inductive SetValue where
  | sds (s : Sds)
  | buffer (s : Sds)
  | integer (llval : Int64)
  deriving DecidableEq

/-- The string of an integer argument is built in `tmpbuf`. -/
def SetValue.str : SetValue → Checked Sds
  | .sds s => .ok s
  | .buffer s => .ok s
  | .integer llval => ll2string longStrSize llval.toInt

/-- The integer that the operations on an intset work with. -/
def SetValue.llval : SetValue → Option Int64
  | .sds s => (string2ll s).map Int64.ofInt
  | .buffer s => (string2ll s).map Int64.ofInt
  | .integer llval => some llval

def sdigits10 (v : Int) : Nat := if v < 0 then digits10 v.natAbs + 1 else digits10 v.toNat

variable (is : Intset) (lp : Memory) (set : SetObject) (value : SetValue) (str : Sds)

/-- The conversion to a hash table with one more member. -/
def addToHt (cap : Nat) (str : Sds) : Checked (SetObject × Bool) := do
  let d ← convertToHt setDictType server set cap
  let (d, added) ← dictAdd setDictType server.dictCanResize d str ()
  require .setTypeAddAux (added = true)
  return (.ht d, true)

/-- A new member goes into a listpack, or into the hash table that replaces it. -/
def appendToListpack : Checked (SetObject × Bool) := do
  let (length, lp) ← lpLength lp
  let safe ← lpSafeToAdd (some lp) str.length
  if length < server.setMaxListpackEntries ∧ str.length ≤ server.setMaxListpackValue ∧ safe = true then
    match value with
    | .integer llval => return (.listpack (← nonNull (lpAppendInteger lp llval.toInt)), true)
    | _ => return (.listpack (← nonNull (lpAppend lp str)), true)
  else
    let (length, lp) ← lpLength lp
    addToHt setDictType server (.listpack lp) (length + 1) str

/-- The position of a member in a listpack. -/
def findInListpack : Checked (Option Nat) := do
  match ← lpFirst lp with
  | some p => lpFind lp p str 0
  | none => return none

def addToListpack : Checked (SetObject × Bool) := do
  match ← findInListpack lp str with
  | some _ => return (.listpack lp, false)
  | none => appendToListpack setDictType server lp value str

/-- The largest digit count and size of the integers as listpack entries. -/
def listpackEstimate : Checked (Nat × Nat) := do
  if is.length ≠ 0 then
    let largest ← intsetMax is
    let smallest ← intsetMin is
    return (max (sdigits10 largest) (sdigits10 smallest),
      max (lpEstimateBytesRepeatedInteger largest is.length) (lpEstimateBytesRepeatedInteger smallest is.length))
  else return (0, 0)

def addStringToIntset : Checked (SetObject × Bool) := do
  let (maxelelen, totsize) ← listpackEstimate is
  let safe ← lpSafeToAdd none (totsize + str.length)
  if is.length < server.setMaxListpackEntries ∧ str.length ≤ server.setMaxListpackValue ∧
      maxelelen ≤ server.setMaxListpackValue ∧ safe = true then
    let lp ← convertToListpack (.intset is) (is.length + 1)
    return (.listpack (← lpShrinkToFit (← nonNull (lpAppend lp str))), true)
  else addToHt setDictType server (.intset is) (is.length + 1) str

def addToIntset (value : Int) : Checked (SetObject × Bool) := do
  let (is, success) ← intsetAdd is value
  if success then return (← maybeConvertIntset setDictType server is, true) else return (.intset is, false)

/-- A hash table keeps its members when the key is one of them. -/
def insertIntoHt (d : Dict Sds Unit) (str : Sds) : Checked (SetObject × Bool) := do
  match ← dictFindPositionForInsert setDictType server.dictCanResize d str with
  | (d, .bucket position) => return (.ht (← dictInsertAtPosition d str () position), true)
  | (d, _) => return (.ht d, false)

def setTypeAddAux : Checked (SetObject × Bool) := do
  match set with
  | .ht d => insertIntoHt setDictType server d (← value.str)
  | .listpack lp => addToListpack setDictType server lp value (← value.str)
  | .intset is =>
    match value.llval with
    | some llval => addToIntset setDictType server is llval.toInt
    | none => addStringToIntset setDictType server is (← value.str)

/-- A deletion can leave a hash table with few members, which then shrinks. -/
def removeFromHt (d : Dict Sds Unit) (str : Sds) : Checked (SetObject × Bool) := do
  let (d, deleted) ← dictDelete setDictType server.dictCanResize d str
  if deleted ∧ htNeedsResize d then return (.ht (dictResize server.dictCanResize d).1, deleted)
  else return (.ht d, deleted)

def removeFromListpack : Checked (SetObject × Bool) := do
  match ← findInListpack lp str with
  | none => return (.listpack lp, false)
  | some p => return (.listpack (← nonNull (do return (← lpDelete lp p).map Prod.fst)), true)

def setTypeRemoveAux : Checked (SetObject × Bool) := do
  match set with
  | .ht d => removeFromHt setDictType server d (← value.str)
  | .listpack lp => removeFromListpack lp (← value.str)
  | .intset is =>
    match value.llval with
    | some llval =>
      let (is, success) ← intsetRemove is llval.toInt
      return (.intset is, success)
    | none => return (.intset is, false)

/-- The lookup in a hash table can do a rehash step, so the set is part of the result. -/
def setTypeIsMemberAux : Checked (SetObject × Bool) := do
  match set with
  | .ht d =>
    let (d, entry) ← dictFind setDictType server.dictCanResize d (← value.str)
    return (.ht d, entry.isSome)
  | .listpack lp => return (.listpack lp, (← findInListpack lp (← value.str)).isSome)
  | .intset is =>
    match value.llval with
    | some llval => return (.intset is, ← intsetFind is llval.toInt)
    | none => return (.intset is, false)

/-- The random numbers of one selection. -/
structure RandomChoice where
  rand : Nat → Nat
  dict : DictChoice

def intsetRandom (choice : RandomChoice) : Checked Int := do
  require .intsetRandom (is.length ≠ 0)
  intsetGet is (choice.rand 0 % (randMax + 1) % is.length)

/-- The random element of a hash table or an intset is removed by its value. -/
def setTypePopRandom (choice : RandomChoice) : Checked (SetObject × Sds) := do
  match set with
  | .listpack lp =>
    match ← lpNextRandom lp choice.rand (← lpFirst lp) 1 with
    | (none, _) => throw (.assertion .lpGetWithSize)
    | (some p, lp) =>
      let obj ← entryText (← lpGetValue lp p)
      return (.listpack (← nonNull (do return (← lpDelete lp p).map Prod.fst)), obj)
  | .intset is =>
    let llele ← intsetRandom is choice
    let obj ← ll2string longStrSize llele
    let (set, _) ← setTypeRemoveAux setDictType server set (.integer (Int64.ofInt llele))
    return (set, obj)
  | .ht d =>
    match ← dictGetFairRandomKey setDictType server.dictCanResize d choice.dict with
    | (_, none) => throw .nullPointer
    | (d, some entry) =>
      let (set, _) ← setTypeRemoveAux setDictType server (.ht d) (.sds entry.1)
      return (set, entry.1)

end Redis.SetType

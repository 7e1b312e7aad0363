/- This file models the dynamic strings of `sds.c` as raw allocations with a packed header before the pointer. -/
import Redis.Construction.Memory

namespace Redis
open Foundation

/-- The type bits of the flags byte; three of their values name no header. -/
inductive SdsType where
  | type5
  | type8
  | type16
  | type32
  | type64
  | unused
  deriving DecidableEq, Repr

namespace SdsType

/-- The value of the type bits. -/
def code : SdsType → Nat
  | type5 => 0
  | type8 => 1
  | type16 => 2
  | type32 => 3
  | type64 => 4
  | unused => 5

def ofFlags (flags : UInt8) : SdsType :=
  match flags.toNat % 8 with
  | 0 => type5
  | 1 => type8
  | 2 => type16
  | 3 => type32
  | 4 => type64
  | _ => unused

/-- The bytes of the `len` field and of the `alloc` field. -/
def width : SdsType → Nat
  | type5 => 0
  | type8 => 1
  | type16 => 2
  | type32 => 4
  | type64 => 8
  | unused => 0

end SdsType

/-- An sds value is a pointer into its allocation. -/
structure Sds where
  memory : Memory
  offset : Nat
  deriving DecidableEq, Repr

/-- The allocator may return more than it was asked for, with any content. -/
structure Allocator where
  malloc : Nat → Memory
  /-- The size `je_nallocx` expects, when the build uses Jemalloc. -/
  nallocx : Option (Nat → Nat)
  malloc_enough : ∀ size, size ≤ (malloc size).length
  nallocx_enough : ∀ expected ∈ nallocx, ∀ size, size ≤ expected size

variable (allocator : Allocator) (s : Sds)

/-- A reallocation keeps the bytes that fit in the requested size. -/
def Allocator.realloc (memory : Memory) (size : Nat) : Memory :=
  memory.take size ++ (allocator.malloc size).drop (min size memory.length)

namespace Sds

def read (index count : Nat) : Checked (List UInt8) := readBytes s.memory (s.offset + index) count

def write (index : Nat) (data : List UInt8) : Checked Sds :=
  return { s with memory := ← writeBytes s.memory (s.offset + index) data }

/-- The header lies before the pointer. -/
def readBefore (distance count : Nat) : Checked (List UInt8) :=
  if distance ≤ s.offset then readBytes s.memory (s.offset - distance) count else .error .outOfBounds

def writeBefore (distance : Nat) (data : List UInt8) : Checked Sds :=
  if distance ≤ s.offset then
    return { s with memory := ← writeBytes s.memory (s.offset - distance) data }
  else .error .outOfBounds

/-- The byte `s[-1]`. -/
def flags : Checked UInt8 := if 1 ≤ s.offset then readCell s.memory (s.offset - 1) else .error .outOfBounds

/-- The allocator takes back only a pointer to the start of an allocation. -/
def allocation (hdrlen : Nat) : Checked Memory := if s.offset = hdrlen then .ok s.memory else .error .outOfBounds

end Sds

def sdsHdrSize : SdsType → Nat
  | .type5 => 1
  | .type8 => 3
  | .type16 => 5
  | .type32 => 9
  | .type64 => 17
  | .unused => 0

def sdsReqType (stringSize : Nat) : SdsType :=
  if stringSize < 2 ^ 5 then .type5
  else if stringSize < 2 ^ 8 then .type8
  else if stringSize < 2 ^ 16 then .type16
  else if stringSize < 2 ^ 32 then .type32
  else .type64

def sdsTypeMaxSize : SdsType → Nat
  | .type5 => 2 ^ 5 - 1
  | .type8 => 2 ^ 8 - 1
  | .type16 => 2 ^ 16 - 1
  | .type32 => 2 ^ 32 - 1
  | _ => 2 ^ 64 - 1

def sdslen : Checked Nat := do
  let flags ← s.flags
  match SdsType.ofFlags flags with
  | .type5 => return flags.toNat / 8
  | .unused => return 0
  | type => return leValue (← s.readBefore (sdsHdrSize type) type.width)

def sdsalloc : Checked Nat := do
  let flags ← s.flags
  match SdsType.ofFlags flags with
  | .type5 => return flags.toNat / 8
  | .unused => return 0
  | type => return leValue (← s.readBefore (type.width + 1) type.width)

def sdsavail : Checked Nat := do
  let flags ← s.flags
  match SdsType.ofFlags flags with
  | .type5 => return 0
  | .unused => return 0
  | type =>
    return leValue (← s.readBefore (type.width + 1) type.width) -
      leValue (← s.readBefore (sdsHdrSize type) type.width)

def sdssetlen (newlen : Nat) : Checked Sds := do
  let flags ← s.flags
  match SdsType.ofFlags flags with
  | .type5 => s.writeBefore 1 [UInt8.ofNat (newlen * 8)]
  | .unused => return s
  | type => s.writeBefore (sdsHdrSize type) (leBytes type.width newlen)

def sdssetalloc (newlen : Nat) : Checked Sds := do
  let flags ← s.flags
  match SdsType.ofFlags flags with
  | .type5 => return s
  | .unused => return s
  | type => s.writeBefore (type.width + 1) (leBytes type.width newlen)

/-- The `init` argument of `sdsnewlen` with its length. -/
inductive SdsInit where
  | bytes (data : List UInt8)
  | null (initlen : Nat)
  | noinit (initlen : Nat)
  deriving DecidableEq, Repr

def SdsInit.initlen : SdsInit → Nat
  | bytes data => data.length
  | null initlen => initlen
  | noinit initlen => initlen

def sdsInitHeader (type : SdsType) (initlen usable : Nat) : Checked Sds :=
  match type with
  | .type5 => s.writeBefore 1 [UInt8.ofNat (initlen * 8)]
  | .unused => .ok s
  | type => do
      let s ← s.writeBefore (sdsHdrSize type) (leBytes type.width initlen)
      let s ← s.writeBefore (type.width + 1) (leBytes type.width usable)
      s.writeBefore 1 [UInt8.ofNat type.code]

def sdsnewlen (init : SdsInit) : Checked Sds := do
  let initlen := init.initlen
  let type := if sdsReqType initlen = .type5 ∧ initlen = 0 then .type8 else sdsReqType initlen
  let hdrlen := sdsHdrSize type
  require .sdsnewlen (initlen < (initlen + hdrlen + 1) % 2 ^ 64)
  let block := allocator.malloc (hdrlen + initlen + 1)
  let memory ← match init with
    | .null _ => writeBytes block 0 (List.replicate (hdrlen + initlen + 1) 0)
    | _ => .ok block
  let usable := min (memory.length - hdrlen - 1) (sdsTypeMaxSize type)
  let s ← sdsInitHeader ⟨memory, hdrlen⟩ type initlen usable
  let s ← match init with
    | .bytes data => s.write 0 data
    | _ => .ok s
  s.write initlen [0]

def sdsdup : Checked Sds := do
  let len ← sdslen s
  sdsnewlen allocator (.bytes (← s.read 0 len))

def sdsclear : Checked Sds := do
  let s ← sdssetlen s 0
  s.write 0 [0]

def sdsMaxPrealloc : Nat := 1024 * 1024

/-- Strings that are expected to grow do not use type 5. -/
def avoidType5 (type : SdsType) : SdsType := if type = .type5 then .type8 else type

variable (len : Nat) (addlen : Nat) (oldtype type : SdsType)

def sdsMoveTo (newlen count : Nat) : Checked Sds := do
  let newsh : Sds := ⟨allocator.malloc newlen, sdsHdrSize type⟩
  let newsh ← newsh.write 0 (← s.read 0 count)
  let _ ← s.allocation (sdsHdrSize oldtype)
  newsh.writeBefore 1 [UInt8.ofNat type.code]

/-- The length that is asked for, with the preallocation of the greedy mode. -/
def sdsPreallocated (greedy : Bool) (reqlen : Nat) : Nat :=
  if greedy then
    if reqlen < sdsMaxPrealloc then reqlen * 2 else (reqlen + sdsMaxPrealloc) % 2 ^ 64
  else reqlen

/-- The string is reallocated in place only when its header stays the same. -/
def sdsEnlarge (newlen len : Nat) : Checked Sds :=
  if oldtype = type then do
    let sh ← s.allocation (sdsHdrSize oldtype)
    .ok ⟨allocator.realloc sh (sdsHdrSize type + newlen + 1), sdsHdrSize type⟩
  else do
    let s ← sdsMoveTo allocator s oldtype type (sdsHdrSize type + newlen + 1) (len + 1)
    sdssetlen s len

/-- The source names this `_sdsMakeRoomFor`. -/
def sdsMakeRoomForGeneric (greedy : Bool) : Checked Sds := do
  let avail ← sdsavail s
  let oldtype := SdsType.ofFlags (← s.flags)
  if addlen ≤ avail then
    return s
  else do
    let len ← sdslen s
    let reqlen := (len + addlen) % 2 ^ 64
    require .sdsMakeRoomFor (len < reqlen)
    let newlen := sdsPreallocated greedy reqlen
    let type := avoidType5 (sdsReqType newlen)
    let hdrlen := sdsHdrSize type
    require .sdsMakeRoomFor (reqlen < (hdrlen + newlen + 1) % 2 ^ 64)
    let s ← sdsEnlarge allocator s oldtype type newlen len
    sdssetalloc s (min (s.memory.length - hdrlen - 1) (sdsTypeMaxSize type))

def sdsMakeRoomFor : Checked Sds := sdsMakeRoomForGeneric allocator s addlen true

def sdsMakeRoomForNonGreedy : Checked Sds := sdsMakeRoomForGeneric allocator s addlen false

/-- The in-place path of `sdsResize`, which Jemalloc builds skip when the size class stays the same. -/
def sdsReallocInPlace (oldhdrlen newlen : Nat) : Checked Sds := do
  let sh ← s.allocation oldhdrlen
  if (allocator.nallocx.map fun nallocx => nallocx newlen) = some sh.length then .ok s
  else .ok ⟨allocator.realloc sh newlen, oldhdrlen⟩

/-- A larger header than needed is kept when it costs little. -/
def sdsReshape (size len : Nat) : Checked Sds :=
  if oldtype = type ∨ (type.code < oldtype.code ∧ SdsType.type8.code < type.code) then
    sdsReallocInPlace allocator s (sdsHdrSize oldtype) (sdsHdrSize oldtype + size + 1)
  else
    sdsMoveTo allocator s oldtype type (sdsHdrSize type + size + 1) len

def sdsResize (size : Nat) (wouldRegrow : Bool) : Checked Sds := do
  let oldtype := SdsType.ofFlags (← s.flags)
  let len ← sdslen s
  let alloc ← sdsalloc s
  if alloc = size then
    return s
  else do
    let len := if size < len then size else len
    let type := if wouldRegrow then avoidType5 (sdsReqType size) else sdsReqType size
    let s ← sdsReshape allocator s oldtype type size len
    let s ← s.write len [0]
    let s ← sdssetlen s len
    sdssetalloc s size

def sdsRemoveFreeSpace (wouldRegrow : Bool) : Checked Sds := do
  sdsResize allocator s (← sdslen s) wouldRegrow

/-- The cast of an increment in the assertions of `sdsIncrLen`. -/
def sdsIncrCast (type : SdsType) (value : Int) : Int := if type = .type64 then value % 2 ^ 64 else value % 2 ^ 32

def sdsIncrLen (incr : Int) : Checked Sds := do
  let flags ← s.flags
  match SdsType.ofFlags flags with
  | .type5 =>
    let oldlen := flags.toNat / 8
    require .sdsIncrLen ((0 < incr ∧ oldlen + incr < 32) ∨ (incr < 0 ∧ sdsIncrCast .type5 (-incr) ≤ oldlen))
    let len := (oldlen + incr).toNat
    let s ← s.writeBefore 1 [UInt8.ofNat (len * 8)]
    s.write len [0]
  | .unused => s.write 0 [0]
  | type =>
    let oldlen := leValue (← s.readBefore (sdsHdrSize type) type.width)
    let alloc := leValue (← s.readBefore (type.width + 1) type.width)
    -- The two narrow headers compare the increment without a cast.
    let room := if type = .type8 ∨ type = .type16 then incr else sdsIncrCast type incr
    require .sdsIncrLen
      ((0 ≤ incr ∧ room ≤ (alloc : Int) - oldlen) ∨ (incr < 0 ∧ sdsIncrCast type (-incr) ≤ oldlen))
    let len := ((oldlen + incr) % 256 ^ type.width).toNat
    let s ← s.writeBefore (sdsHdrSize type) (leBytes type.width len)
    s.write len [0]

def sdsgrowzero : Checked Sds := do
  let curlen ← sdslen s
  if len ≤ curlen then
    return s
  else do
    let s ← sdsMakeRoomFor allocator s (len - curlen)
    let s ← s.write curlen (List.replicate (len - curlen + 1) 0)
    sdssetlen s len

def sdscatlen (t : List UInt8) : Checked Sds := do
  let curlen ← sdslen s
  let s ← sdsMakeRoomFor allocator s t.length
  let s ← s.write curlen t
  let s ← sdssetlen s (curlen + t.length)
  s.write (curlen + t.length) [0]

/-- The copy only needs room when the whole allocation is too small. -/
def sdsReserve : Checked Sds := do
  let alloc ← sdsalloc s
  if alloc < len then do
    let curlen ← sdslen s
    sdsMakeRoomFor allocator s (len - curlen)
  else
    return s

def sdscpylen (t : List UInt8) : Checked Sds := do
  let s ← sdsReserve allocator s t.length
  let s ← s.write 0 t
  let s ← s.write t.length [0]
  sdssetlen s t.length

/-- The `memmove` of a part of the string to its front, when it is needed. -/
def sdsMoveToFront (start len : Nat) (needed : Bool) : Checked Sds :=
  if needed then do
    let moved ← s.read start len
    s.write 0 moved
  else .ok s

/-- The search of `strchr` also finds the terminator of the C string. -/
def strchr : List UInt8 → UInt8 → Bool
  | [], byte => byte == 0
  | char :: chars, byte => char == byte || (char != 0 && strchr chars byte)

/-- The first loop of `sdstrim`, with the number of bytes up to `end`. -/
def sdstrimLeft (s : Sds) (cset : List UInt8) : Nat → Nat → Checked Nat
  | 0, sp => .ok sp
  | left + 1, sp => do
      let byte ← readCell s.memory (s.offset + sp)
      if strchr cset byte then sdstrimLeft s cset left (sp + 1) else .ok sp

/-- The second loop of `sdstrim`, whose argument is one more than `ep`. -/
def sdstrimRight (s : Sds) (cset : List UInt8) (sp : Nat) : Nat → Checked Nat
  | 0 => .ok 0
  | ep + 1 =>
    if sp < ep then do
      let byte ← readCell s.memory (s.offset + ep)
      if strchr cset byte then sdstrimRight s cset sp ep else .ok (ep + 1)
    else .ok (ep + 1)

def sdstrim (cset : List UInt8) : Checked Sds := do
  let len ← sdslen s
  let sp ← sdstrimLeft s cset len 0
  let ep ← sdstrimRight s cset sp len
  let newlen := ep - sp
  let s ← sdsMoveToFront s sp newlen (sp ≠ 0)
  let s ← s.write newlen [0]
  sdssetlen s newlen

def sdssubstr (start len : Nat) : Checked Sds := do
  let oldlen ← sdslen s
  let len := if oldlen ≤ start then 0 else len
  let start := if oldlen ≤ start then 0 else start
  let len := if oldlen - start < len then oldlen - start else len
  let s ← sdsMoveToFront s start len (len ≠ 0)
  let s ← s.write len [0]
  sdssetlen s len

/-- An index of `sdsrange` counts from the end when it is negative. -/
def sdsIndex (index : Int) : Int := if index < 0 then len + index else index

def sdsrange (start stop : Int) : Checked Sds := do
  let len ← sdslen s
  if len = 0 then
    return s
  else
    let start := sdsIndex len start
    let stop := sdsIndex len stop
    let newlen := if stop < start then 0 else ((stop - start + 1) % 2 ^ 64).toNat
    sdssubstr s (start % 2 ^ 64).toNat newlen

inductive SdsEdit where
  | makeRoomFor (greedy : Bool) (addlen : Nat)
  /-- Room is made, the caller writes `data` into it and sets the new length. -/
  | fill (greedy : Bool) (addlen : Nat) (data : List UInt8)
  /-- The negative increment that trims on the right. -/
  | decrLen (count : Nat)
  | catlen (data : List UInt8)
  | cpylen (data : List UInt8)
  | growzero (len : Nat)
  | range (start stop : Int)
  | trim (cset : List UInt8)
  | substr (start len : Nat)
  | clear
  | resize (size : Nat) (wouldRegrow : Bool)
  | removeFreeSpace (wouldRegrow : Bool)
  deriving DecidableEq, Repr

def SdsEdit.apply : SdsEdit → Checked Sds
  | makeRoomFor greedy addlen => sdsMakeRoomForGeneric allocator s addlen greedy
  | fill greedy addlen data => do
      let s ← sdsMakeRoomForGeneric allocator s addlen greedy
      let s ← s.write (← sdslen s) data
      sdsIncrLen s data.length
  | decrLen count => sdsIncrLen s (-count)
  | catlen data => sdscatlen allocator s data
  | cpylen data => sdscpylen allocator s data
  | growzero len => sdsgrowzero allocator s len
  | range start stop => sdsrange s start stop
  | trim cset => sdstrim s cset
  | substr start len => sdssubstr s start len
  | clear => sdsclear s
  | resize size wouldRegrow => sdsResize allocator s size wouldRegrow
  | removeFreeSpace wouldRegrow => sdsRemoveFreeSpace allocator s wouldRegrow

/-- A call on a program's strings, with the allocator's answers to it. -/
inductive SdsCall where
  | newlen (init : SdsInit)
  | dup (index : Nat)
  | edit (index : Nat) (edit : SdsEdit)
  deriving DecidableEq, Repr

/-- Every call of a program keeps the strings it does not name. -/
def sdsStep (pool : List Sds) : Allocator × SdsCall → Checked (List Sds × Unit)
  | (allocator, .newlen init) => do
      return (pool ++ [← sdsnewlen allocator init], ())
  | (allocator, .dup index) => do
      return (pool ++ [← sdsdup allocator (← readCell pool index)], ())
  | (allocator, .edit index edit) => do
      return (pool.set index (← edit.apply allocator (← readCell pool index)), ())

end Redis

import Redis.Construction.Fault
import Redis.Foundation.Bytes
import Redis.Foundation.Outcome

namespace Redis

/-- One allocation. -/
abbrev Memory := List UInt8

variable (memory : Memory)

/-- A read of consecutive bytes stays inside the allocation. -/
def readBytes (offset count : Nat) : Checked (List UInt8) :=
  if offset + count ≤ memory.length then .ok ((memory.drop offset).take count)
  else .error .outOfBounds

/-- A write of consecutive bytes stays inside the allocation. -/
def writeBytes (offset : Nat) (data : List UInt8) : Checked Memory :=
  if offset + data.length ≤ memory.length then
    .ok (memory.take offset ++ data ++ memory.drop (offset + data.length))
  else .error .outOfBounds

/-- The source range may overlap the destination range. -/
def memmove (target source count : Nat) : Checked Memory := do
  writeBytes memory target (← readBytes memory source count)

/-- The new bytes of a grown allocation have no defined content and are zero here. -/
def zrealloc (size : Nat) : Memory := memory.take size ++ List.replicate (size - memory.length) 0

theorem readBytes_of {memory : Memory} {offset count : Nat} (fits : offset + count ≤ memory.length) :
    readBytes memory offset count = .ok ((memory.drop offset).take count) := if_pos fits

theorem length_of_readBytes {memory : Memory} {start count : Nat} {bytes : List UInt8}
    (read : readBytes memory start count = .ok bytes) : count = bytes.length := by
  rw [readBytes] at read
  split at read
  · cases read
    rw [List.length_take, List.length_drop]
    omega
  · cases read

theorem readBytes_append (left middle right : List UInt8) {offset count : Nat}
    (start : offset = left.length) (size : count = middle.length) :
    readBytes (left ++ middle ++ right) offset count = .ok middle := by
  subst start size
  rw [readBytes, if_pos (by simp), List.append_assoc, List.drop_left, List.take_left]

theorem writeBytes_append (left middle right data : List UInt8) {offset : Nat}
    (start : offset = left.length) (size : data.length = middle.length) :
    writeBytes (left ++ middle ++ right) offset data = .ok (left ++ data ++ right) := by
  subst start
  have before : (left ++ middle ++ right).take left.length = left := by
    rw [List.append_assoc, List.take_left]
  have after : (left ++ middle ++ right).drop (left.length + middle.length) = right := by
    rw [← List.length_append, List.drop_left]
  rw [writeBytes, size, if_pos (by simp), before, after]

theorem zrealloc_grow {memory : Memory} {size : Nat} (grows : memory.length ≤ size) :
    zrealloc memory size = memory ++ List.replicate (size - memory.length) 0 := by
  rw [zrealloc, List.take_of_length_le grows]

theorem zrealloc_shrink {memory : Memory} {size : Nat} (shrinks : size ≤ memory.length) :
    zrealloc memory size = memory.take size := by
  rw [zrealloc, Nat.sub_eq_zero_of_le shrinks, List.replicate_zero, List.append_nil]

end Redis

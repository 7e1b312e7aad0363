import Redis.Proof.Listpack.Validation

namespace Redis.Listpack
open Foundation List
variable {lp : Memory} {bytes : Nat}
variable {front : List Nat} {p stop : Nat} {rest : List Nat}

/-- Consecutive entries lead from one offset to another. -/
inductive Chain (lp : Memory) (bytes : Nat) : Nat → List Nat → Nat → Prop where
  | nil (p : Nat) : Chain lp bytes p [] p
  | cons {p q stop : Nat} {rest : List Nat} (entry : EntryAt lp bytes p q)
      (chain : Chain lp bytes q rest stop) : Chain lp bytes p (p :: rest) stop

section Entry
variable {p q : Nat} (entry : EntryAt lp bytes p q)
include entry
theorem EntryAt.lt : p < q := by
  obtain ⟨size, _, _, same, _⟩ := entry.size
  have := length_lpEncodeBacklen size
  omega

theorem EntryAt.skip : lpSkip lp p = .ok q := by
  obtain ⟨size, sized, _, same, _⟩ := entry.size
  rw [lpSkip, sized, same]
  rfl

theorem EntryAt.assert_valid : lpAssertValidEntry lp bytes p = .ok () := by
  rw [lpAssertValidEntry, entry.valid]
  rfl

theorem EntryAt.read_ne_eof : ∃ byte, readCell lp p = .ok byte ∧ byte ≠ lpEof := by
  obtain ⟨byte, read, other, _⟩ := entry.header
  exact ⟨byte, readCell_of read, other⟩

theorem EntryAt.prev (total : lpBytes lp = .ok bytes) : lpPrev lp q = .ok (some p) := by
  have lower := entry.lower
  obtain ⟨size, _, small, same, decoded⟩ := entry.size
  have backlen := length_lpEncodeBacklen size
  simp only [lpHdrSize] at lower
  have back : (size + (lpEncodeBacklen size).length) % 2 ^ 64 = q - p := by omega
  have start : q - (q - p) = p := by omega
  rw [lpPrev, if_neg (by simp only [lpHdrSize]; omega), if_neg (by omega), decoded, ok_bind]
  dsimp only
  rw [back, require_of (show q - p ≤ q by omega), ok_bind, total, ok_bind, start, entry.assert_valid]
  rfl
end Entry

theorem Chain.le {offsets : List Nat} (chain : Chain lp bytes p offsets stop) : p + offsets.length ≤ stop := by
  induction chain with
  | nil p => exact le_rfl
  | cons entry _ ih =>
    have := entry.lt
    rw [length_cons]
    omega

theorem Chain.split {front back : List Nat} (chain : Chain lp bytes p (front ++ back) stop) :
    ∃ q, Chain lp bytes p front q ∧ Chain lp bytes q back stop := by
  induction front generalizing p with
  | nil => exact ⟨p, .nil p, chain⟩
  | cons offset front ih =>
    cases chain with
    | cons entry rest =>
      obtain ⟨q, first, second⟩ := ih rest
      exact ⟨q, .cons entry first, second⟩

theorem Chain.last {p stop offset : Nat} (chain : Chain lp bytes p (front ++ [offset]) stop) :
    Chain lp bytes p front offset ∧ EntryAt lp bytes offset stop := by
  obtain ⟨q, first, second⟩ := chain.split
  cases second with
  | cons entry rest =>
    cases rest
    exact ⟨first, entry⟩

theorem Chain.entry_of_mem {p stop offset : Nat} {offsets : List Nat}
    (chain : Chain lp bytes p offsets stop) (member : offset ∈ offsets) :
    ∃ q, EntryAt lp bytes offset q := by
  induction chain with
  | nil p => cases member
  | cons entry _ ih =>
    rcases mem_cons.mp member with rfl | member
    · exact ⟨_, entry⟩
    · exact ih member

/-- The listpack from its header to its end mark is a chain of entries. -/
structure Linked (lp : Memory) (bytes : Nat) (offsets : List Nat) : Prop where
  total : lpBytes lp = .ok bytes
  chain : Chain lp bytes lpHdrSize offsets (bytes - 1)
  eof : readCell lp (bytes - 1) = .ok lpEof
  within : bytes ≤ lp.length
  nonempty : 0 < bytes

section Linked
variable {offsets : List Nat}

section Steps
variable (total : lpBytes lp = .ok bytes) (eof : readCell lp stop = .ok lpEof)
include total
section Forward
include eof
theorem Chain.start_valid (chain : Chain lp bytes p rest stop) :
    (do if (← readCell lp p) = lpEof then return none
        lpAssertValidEntry lp (← lpBytes lp) p
        return some p : Checked (Option Nat)) = .ok rest.head? := by
  cases chain with
  | nil => rw [eof, ok_bind, if_pos rfl]; rfl
  | cons entry _ =>
    obtain ⟨byte, read, other⟩ := entry.read_ne_eof
    rw [read, ok_bind, if_neg other, total, ok_bind, entry.assert_valid]
    rfl

theorem Chain.next (chain : Chain lp bytes p (p :: rest) stop) : lpNext lp p = .ok rest.head? := by
  cases chain with
  | cons entry chain =>
    rw [lpNext, entry.skip]
    exact chain.start_valid total eof

theorem walkLoop_next {fuel : Nat} (chain : Chain lp bytes p rest stop) (enough : rest.length ≤ fuel) :
    walkLoop (lpNext lp) fuel rest.head? = .ok rest := by
  induction rest generalizing p fuel with
  | nil => cases fuel <;> rfl
  | cons offset rest ih =>
    cases fuel with
    | zero => simp at enough
    | succ fuel =>
      have step := chain
      cases chain with
      | cons entry chain =>
        rw [head?_cons, walkLoop, step.next total eof, ok_bind, ih chain (by simpa using enough)]
        rfl

theorem countLoop_eq {fuel count : Nat} (chain : Chain lp bytes p rest stop) (enough : rest.length ≤ fuel)
    (small : count + rest.length < 2 ^ 32) : countLoop lp fuel rest.head? count = .ok (count + rest.length) := by
  induction rest generalizing p fuel count with
  | nil => cases fuel <;> rfl
  | cons offset rest ih =>
    cases fuel with
    | zero => simp at enough
    | succ fuel =>
      have step := chain
      cases chain with
      | cons entry chain =>
        rw [length_cons] at small enough
        rw [head?_cons, countLoop, step.next total eof, ok_bind,
          Nat.mod_eq_of_lt (by omega), ih chain (by omega) (by omega), length_cons]
        congr 1
        omega

theorem seekLoop_next (count : Nat) (chain : Chain lp bytes p rest stop) :
    seekLoop (lpNext lp) count rest.head? = .ok rest[count]? := by
  induction count generalizing p rest with
  | zero => rw [seekLoop, head?_eq_getElem?]
  | succ count ih =>
    cases rest with
    | nil => rfl
    | cons offset rest =>
      have step := chain
      cases chain with
      | cons entry chain => rw [head?_cons, seekLoop, step.next total eof, ok_bind, ih chain]; rfl
end Forward

theorem Chain.prev (chain : Chain lp bytes lpHdrSize front stop) : lpPrev lp stop = .ok front.getLast? := by
  cases front using List.reverseRecOn with
  | nil =>
    cases chain
    rfl
  | append_singleton front offset =>
    rw [chain.last.2.prev total, getLast?_append]
    rfl

theorem walkLoop_prev {fuel : Nat} (chain : Chain lp bytes lpHdrSize front stop) (enough : front.length ≤ fuel) : walkLoop (lpPrev lp) fuel front.getLast? = .ok front.reverse := by
  induction front using List.reverseRecOn generalizing stop fuel with
  | nil => cases fuel <;> rfl
  | append_singleton front offset ih =>
    cases fuel with
    | zero => simp at enough
    | succ fuel =>
      have before := chain.last.1
      rw [getLast?_append, reverse_append]
      simp only [getLast?_singleton, Option.some_or]
      rw [walkLoop, before.prev total, ok_bind, ih before (by simpa using enough)]
      rfl

theorem seekLoop_prev (count : Nat) (chain : Chain lp bytes lpHdrSize front stop) :
    seekLoop (lpPrev lp) count front.getLast? = .ok front.reverse[count]? := by
  induction count generalizing stop front with
  | zero => rw [seekLoop, ← head?_reverse, head?_eq_getElem?]
  | succ count ih =>
    cases front using List.reverseRecOn with
    | nil => rfl
    | append_singleton front offset =>
      have before := chain.last.1
      rw [getLast?_append, reverse_append]
      simp only [getLast?_singleton, Option.some_or]
      rw [seekLoop, before.prev total, ok_bind, ih before]
      rfl
end Steps

variable (linked : Linked lp bytes offsets)
include linked
theorem Linked.first : lpFirst lp = .ok offsets.head? := linked.chain.start_valid linked.total linked.eof

theorem Linked.last : lpLast lp = .ok offsets.getLast? := by
  have total : lpGetTotalBytes lp = .ok bytes := linked.total
  rw [lpLast, total]
  exact linked.chain.prev linked.total

theorem Linked.walkForward : walkForward lp = .ok offsets := by
  have length := linked.chain.le
  have within := linked.within
  rw [Listpack.walkForward, linked.first]
  exact walkLoop_next linked.total linked.eof linked.chain (by omega)

theorem Linked.walkBackward : walkBackward lp = .ok offsets.reverse := by
  have length := linked.chain.le
  have within := linked.within
  rw [Listpack.walkBackward, linked.last]
  exact walkLoop_prev linked.total linked.chain (by omega)

/-- The element position that an index of `lpSeek` names. -/
def seekPosition (length : Nat) (index : Int) : Option Nat :=
  let position := if index < 0 then length + index else index
  if 0 ≤ position ∧ position < length then some position.toNat else none

/-- The header counts the elements unless it holds the unknown mark. -/
def CountedBy (lp : Memory) (length : Nat) : Prop :=
  ∃ numele, lpGetNumElements lp = .ok numele ∧ (numele = lpHdrNumeleUnknown ∨ numele = length)

/-- A seek from either end finds the element at its position. -/
theorem Linked.seek (counted : CountedBy lp offsets.length) (index : Int) :
    lpSeek lp index = .ok ((seekPosition offsets.length index).bind (offsets[·]?)) := by
  obtain ⟨numele, read, known⟩ := counted
  have forward : ∀ count, (lpFirst lp >>= seekLoop (lpNext lp) count) = .ok offsets[count]? := by
    intro count
    rw [linked.first, ok_bind, seekLoop_next linked.total linked.eof count linked.chain]
  have backward : ∀ count, (lpLast lp >>= seekLoop (lpPrev lp) count) = .ok offsets.reverse[count]? := by
    intro count
    rw [linked.last, ok_bind, seekLoop_prev linked.total count linked.chain]
  rw [lpSeek, read, ok_bind]
  unfold seekPosition
  by_cases unknown : numele = lpHdrNumeleUnknown
  · rw [if_neg (not_not_intro unknown)]
    by_cases negative : index < 0
    · rw [if_pos negative, if_pos negative, backward]
      congr 1
      by_cases inside : 0 ≤ (offsets.length : Int) + index
      · rw [if_pos ⟨inside, by omega⟩, getElem?_reverse (by omega)]
        congr 1
        omega
      · rw [if_neg (by omega), getElem?_eq_none (by rw [length_reverse]; omega)]
        rfl
    · rw [if_neg negative, if_neg negative, forward]
      by_cases inside : index < offsets.length
      · rw [if_pos ⟨by omega, inside⟩]
        rfl
      · rw [if_neg (by omega), getElem?_eq_none (by omega)]
        rfl
  · have same : numele = offsets.length := known.resolve_left unknown
    rw [if_pos unknown, same]
    generalize (if index < 0 then (offsets.length : Int) + index else index) = position
    by_cases inside : 0 ≤ position ∧ position < offsets.length
    · rw [if_neg (by omega), if_pos inside]
      simp only [Option.bind_some]
      split
      · rw [backward, getElem?_reverse (by omega)]
        congr 2
        omega
      · rw [forward]
    · rw [if_pos (by omega), if_neg inside]
      rfl

/-- The length is the number of elements, and only the count of the header can change. -/
theorem Linked.length (counted : CountedBy lp offsets.length) (small : bytes ≤ 2 ^ 32) :
    lpLength lp = .ok (offsets.length, lp) ∨ offsets.length < lpHdrNumeleUnknown ∧
      lpLength lp = (do return (offsets.length, ← lpSetNumElements lp offsets.length)) := by
  obtain ⟨numele, read, known⟩ := counted
  have chain := linked.chain.le
  have within := linked.within
  have counted : countLoop lp lp.length offsets.head? 0 = .ok offsets.length := by
    have scanned := countLoop_eq linked.total linked.eof linked.chain
      (show offsets.length ≤ lp.length by omega) (show 0 + offsets.length < 2 ^ 32 by omega)
    rwa [Nat.zero_add] at scanned
  rw [lpLength, read, ok_bind]
  by_cases unknown : numele = lpHdrNumeleUnknown
  · rw [if_neg (not_not_intro unknown), linked.first, ok_bind, counted, ok_bind]
    split
    · rename_i few
      exact .inr ⟨few, rfl⟩
    · exact .inl rfl
  · rw [if_pos unknown, known.resolve_left unknown]
    exact .inl rfl
end Linked
end Redis.Listpack

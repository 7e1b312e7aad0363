import Mathlib.Tactic

namespace Redis

/-- Each site names the source function whose assertion stops the process. -/
inductive AssertSite where
  | dictRehash
  | dictInsertAtPosition
  | intsetResize
  | lpAssertIntegrity
  | lpAssertIntegrityLen
  | lpAssertValidEntry
  | lpBatchDelete
  | lpMerge
  | raxAddChild
  | raxCompressNode
  | zslUpdateScore
  | lpFind
  | lpGetWithSize
  | intsetRandom
  | maybeConvertToIntset
  | setTypeAddAux
  | setTypeConvertAndExpand
  | clusterDelSlot
  | clusterSetMaster
  | clusterUpdateSlots
  | sdsnewlen
  | sdsMakeRoomFor
  | sdsIncrLen
  | getNewBaseFileNameAndMarkPreAsHistory
  | markRewrittenIncrAofAsHistory
  | aofDelHistoryFiles
  | aclSetUser
  | aclDescribeSelectorCommandRules
  | sdsCatPatternString
  | replyToBlockedClientTimedOut
  deriving DecidableEq, Repr

/-- A modelled C computation that does not return stops for one of these reasons. -/
inductive Fault where
  | assertion (site : AssertSite)
  | outOfBounds
  | nullPointer
  | outOfMemory
  | outOfFuel
  | signedOverflow
  deriving DecidableEq, Repr

/-- A checked computation returns its value or the fault that stops the process. -/
abbrev Checked (A : Type) := Except Fault A

/-- The `assert` of the source. -/
def require (site : AssertSite) (condition : Prop) [Decidable condition] : Checked Unit :=
  if condition then .ok () else .error (.assertion site)

/-- An array access reads one cell inside the allocation. -/
def readCell {A : Type} (cells : List A) (index : Nat) : Checked A :=
  match cells[index]? with
  | some cell => .ok cell
  | none => .error .outOfBounds

/-- Strings are compared byte by byte. -/
instance decidableMemBytes (s : List UInt8) (strings : List (List UInt8)) : Decidable (s ∈ strings) := inferInstance

theorem require_of {site : AssertSite} {condition : Prop} [Decidable condition]
    (holds : condition) : require site condition = .ok () := if_pos holds

theorem readCell_of {A : Type} {cells : List A} {index : Nat} {cell : A}
    (found : cells[index]? = some cell) : readCell cells index = .ok cell := by
  simp only [readCell, found]

end Redis

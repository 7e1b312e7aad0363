/-
This file embeds the skiplist of `t_zset.c`.
A pointer to a node is a number, and the header is a place of its own.
Scores have a linear order, since the source excludes NaN. The random levels are inputs.
-/

import Redis.Construction.Fault
import Redis.Foundation.Outcome

namespace Redis.SortedSet
open Foundation

abbrev Sds := List UInt8

/-- The common bytes are compared first, and then the lengths. -/
def sdscmp : Sds → Sds → Int
  | [], [] => 0
  | [], _ :: _ => -1
  | _ :: _, [] => 1
  | a :: as, b :: bs => if a = b then sdscmp as bs else (a.toNat : Int) - b.toNat

def zskiplistMaxlevel : Nat := 32

structure ZskiplistLevel where
  forward : Option Nat
  span : Nat
  deriving DecidableEq, Repr

structure ZskiplistNode (Score : Type) where
  ele : Sds
  score : Score
  backward : Option Nat
  level : List ZskiplistLevel
  deriving DecidableEq, Repr

/-- A pointer to the header or to another node. -/
inductive Place where
  | header
  | node (pointer : Nat)
  deriving DecidableEq, Repr

/-- The heap holds the allocated nodes, and `fresh` is the next result of `zmalloc`.
Only the levels of the header are used. -/
structure Zskiplist (Score : Type) where
  header : List ZskiplistLevel
  heap : Nat → Option (ZskiplistNode Score)
  fresh : Nat
  tail : Option Nat
  length : Nat
  level : Nat

variable {Score : Type}

def zslCreate : Zskiplist Score :=
  { header := List.replicate zskiplistMaxlevel ⟨none, 0⟩, heap := fun _ => none, fresh := 0
    tail := none, length := 0, level := 1 }

variable (zsl : Zskiplist Score) (path : List (Place × Nat))

/-- The use of a freed node is a fault. -/
def loadNode (pointer : Nat) : Checked (ZskiplistNode Score) :=
  match zsl.heap pointer with
  | some node => .ok node
  | none => .error .outOfBounds

def storeNode (pointer : Nat) (node : Option (ZskiplistNode Score)) : Zskiplist Score :=
  { zsl with heap := Function.update zsl.heap pointer node }

def readLevel (place : Place) (i : Nat) : Checked ZskiplistLevel := do
  match place with
  | .header => readCell zsl.header i
  | .node pointer => readCell (← loadNode zsl pointer).level i

def writeLevel (place : Place) (i : Nat) (level : ZskiplistLevel) : Checked (Zskiplist Score) := do
  let _ ← readLevel zsl place i
  match place with
  | .header => return { zsl with header := zsl.header.set i level }
  | .node pointer => do
      let node ← loadNode zsl pointer
      return storeNode zsl pointer (some { node with level := node.level.set i level })

def setBackward (pointer : Nat) (backward : Option Nat) : Checked (Zskiplist Score) := do
  let node ← loadNode zsl pointer
  return storeNode zsl pointer (some { node with backward := backward })

/-- A loop over `count` levels from `start` on. -/
def forLevels (start : Nat) (body : Nat → Zskiplist Score → Checked (Zskiplist Score)) :
    Nat → Zskiplist Score → Checked (Zskiplist Score)
  | 0, zsl => .ok zsl
  | count + 1, zsl => do body (start + count) (← forLevels start body count zsl)

/-- The inner loop of a search. The test gets the next node and its rank. -/
def walk (zsl : Zskiplist Score) (ahead : ZskiplistNode Score → Nat → Bool) (i : Nat) :
    Nat → Place → Nat → Checked (Place × Nat)
  | fuel, x, rank => do
      let level ← readLevel zsl x i
      match level.forward with
      | none => return (x, rank)
      | some pointer =>
        let node ← loadNode zsl pointer
        if ahead node (rank + level.span) then
          match fuel with
          | 0 => throw .outOfFuel
          | fuel + 1 => walk zsl ahead i fuel (.node pointer) (rank + level.span)
        else return (x, rank)

/-- The outer loop of a search returns the arrays `update` and `rank`. -/
def descend (zsl : Zskiplist Score) (ahead : ZskiplistNode Score → Nat → Bool) :
    Nat → Place → Nat → Checked (List (Place × Nat))
  | 0, _, _ => .ok []
  | i + 1, x, rank => do
      let (x, rank) ← walk zsl ahead i zsl.length x rank
      return (← descend zsl ahead i x rank) ++ [(x, rank)]

def search (ahead : ZskiplistNode Score → Nat → Bool) : Checked (List (Place × Nat)) :=
  descend zsl ahead zsl.level .header 0

/-- The node `x->level[0].forward` after a search. -/
def found : Checked (Option Nat) := do
  return (← readLevel zsl (← readCell path 0).1 0).forward

section Update
variable [LinearOrder Score]

/-- The order of the nodes. -/
def precedes (node : ZskiplistNode Score) (score : Score) (ele : Sds) : Bool :=
  decide (node.score < score ∨ (node.score = score ∧ sdscmp node.ele ele < 0))

/-- The level is one more than the number of successful random draws, up to the maximum. -/
def zslRandomLevel (draws : Nat) : Nat := if draws + 1 < zskiplistMaxlevel then draws + 1 else zskiplistMaxlevel

/-- The levels of a new node have no defined content and are empty here. -/
def zslCreateNode (level : Nat) (score : Score) (ele : Sds) : Zskiplist Score :=
  { storeNode zsl zsl.fresh (some ⟨ele, score, none, List.replicate level ⟨none, 0⟩⟩) with fresh := zsl.fresh + 1 }

/-- New levels start at the header. -/
def raiseLevel (level : Nat) : Checked (Zskiplist Score × List (Place × Nat)) :=
  if level > zsl.level then do
    let raised ← forLevels zsl.level (fun i zsl => do
      writeLevel zsl .header i { (← readLevel zsl .header i) with span := zsl.length }) (level - zsl.level) zsl
    return ({ raised with level := level }, path ++ List.replicate (level - zsl.level) (.header, 0))
  else .ok (zsl, path)

/-- The new node is linked into one level. -/
def linkLevel (x i : Nat) (zsl : Zskiplist Score) : Checked (Zskiplist Score) := do
  let (_, rank0) ← readCell path 0
  let (update, rank) ← readCell path i
  let old ← readLevel zsl update i
  let zsl ← writeLevel zsl (.node x) i ⟨old.forward, old.span - (rank0 - rank)⟩
  writeLevel zsl update i ⟨some x, rank0 - rank + 1⟩

/-- A level above the new node gets a longer span. -/
def growSpan (i : Nat) (zsl : Zskiplist Score) : Checked (Zskiplist Score) := do
  let (update, _) ← readCell path i
  let old ← readLevel zsl update i
  writeLevel zsl update i { old with span := old.span + 1 }

def Place.pointer? : Place → Option Nat
  | .header => none
  | .node pointer => some pointer

def zslInsert (draws : Nat) (score : Score) (ele : Sds) : Checked (Zskiplist Score × Nat) := do
  let path ← search zsl fun node _ => precedes node score ele
  let level := zslRandomLevel draws
  let (zsl, path) ← raiseLevel zsl path level
  let x := zsl.fresh
  let zsl := zslCreateNode zsl level score ele
  let zsl ← forLevels 0 (linkLevel path x) level zsl
  let zsl ← forLevels level (growSpan path) (zsl.level - level) zsl
  let zsl ← setBackward zsl x (← readCell path 0).1.pointer?
  let zsl ← (match (← readLevel zsl (.node x) 0).forward with
    | some next => setBackward zsl next (some x)
    | none => return { zsl with tail := some x })
  return ({ zsl with length := zsl.length + 1 }, x)

/-- The node is taken out of one level. The sum `old.span + (own.span - 1)` does not depend on
an unsigned underflow. -/
def unlinkLevel (x i : Nat) (zsl : Zskiplist Score) : Checked (Zskiplist Score) := do
  let (update, _) ← readCell path i
  let old ← readLevel zsl update i
  if old.forward = some x then
    let own ← readLevel zsl (.node x) i
    writeLevel zsl update i ⟨own.forward, old.span + own.span - 1⟩
  else writeLevel zsl update i { old with span := old.span - 1 }

/-- The loop that removes unused levels. -/
def lowerLevel (zsl : Zskiplist Score) : Nat → Checked Nat
  | 0 => .ok 0
  | 1 => .ok 1
  | level + 2 => do
      if (← readLevel zsl .header (level + 1)).forward = none then lowerLevel zsl (level + 1) else return level + 2

def zslDeleteNode (x : Nat) (path : List (Place × Nat)) : Checked (Zskiplist Score) := do
  let zsl ← forLevels 0 (unlinkLevel path x) zsl.level zsl
  let backward := (← loadNode zsl x).backward
  let zsl ← (match (← readLevel zsl (.node x) 0).forward with
    | some next => setBackward zsl next backward
    | none => return { zsl with tail := backward })
  return { zsl with level := ← lowerLevel zsl zsl.level, length := zsl.length - 1 }

def zslFreeNode (x : Nat) : Zskiplist Score := storeNode zsl x none

/-- A node that is not returned to the caller is freed. -/
def zslDelete (score : Score) (ele : Sds) : Checked (Zskiplist Score × Bool) := do
  let path ← search zsl fun node _ => precedes node score ele
  match ← found zsl path with
  | none => return (zsl, false)
  | some x =>
    let node ← loadNode zsl x
    if score = node.score ∧ sdscmp node.ele ele = 0 then
      return (zslFreeNode (← zslDeleteNode zsl x path) x, true)
    else return (zsl, false)

/-- The result includes the pointer to the node with the new score. -/
def zslUpdateScore (draws : Nat) (curscore : Score) (ele : Sds) (newscore : Score) :
    Checked (Zskiplist Score × Nat) := do
  let path ← search zsl fun node _ => precedes node curscore ele
  match ← found zsl path with
  | none => throw (.assertion .zslUpdateScore)
  | some x =>
    let node ← loadNode zsl x
    require .zslUpdateScore (curscore = node.score ∧ sdscmp node.ele ele = 0)
    let before ← (match node.backward with
      | none => return true
      | some back => return decide ((← loadNode zsl back).score < newscore))
    let after ← (match (← readLevel zsl (.node x) 0).forward with
      | none => return true
      | some next => return decide ((← loadNode zsl next).score > newscore))
    if before && after then return (storeNode zsl x (some { node with score := newscore }), x)
    else
      let zsl ← zslDeleteNode zsl x path
      let (zsl, new) ← zslInsert zsl draws newscore node.ele
      return (zslFreeNode zsl x, new)
end Update

section Ranges
variable [LinearOrder Score]

structure Zrangespec (Score : Type) where
  min : Score
  max : Score
  minex : Bool
  maxex : Bool
  deriving DecidableEq, Repr

/-- A bound is a string or one of the shared strings for no bound. -/
inductive LexBound where
  | minstring
  | maxstring
  | string (value : Sds)
  deriving DecidableEq, Repr

structure Zlexrangespec where
  min : LexBound
  max : LexBound
  minex : Bool
  maxex : Bool
  deriving DecidableEq, Repr

def zslValueGteMin (value : Score) (spec : Zrangespec Score) : Bool :=
  if spec.minex then decide (value > spec.min) else decide (value ≥ spec.min)

def zslValueLteMax (value : Score) (spec : Zrangespec Score) : Bool :=
  if spec.maxex then decide (value < spec.max) else decide (value ≤ spec.max)

/-- The first string is an element and not one of the shared strings. -/
def sdscmplex (value : Sds) : LexBound → Int
  | .maxstring => -1
  | .minstring => 1
  | .string bound => sdscmp value bound

def zslLexValueGteMin (value : Sds) (spec : Zlexrangespec) : Bool :=
  if spec.minex then decide (sdscmplex value spec.min > 0) else decide (sdscmplex value spec.min ≥ 0)

def zslLexValueLteMax (value : Sds) (spec : Zlexrangespec) : Bool :=
  if spec.maxex then decide (sdscmplex value spec.max < 0) else decide (sdscmplex value spec.max ≤ 0)

/-- The loop deletes nodes while they are in the range. The test gets the node and its rank.
The removed elements are returned, and the caller deletes them from the dictionary. -/
def deleteWhile (inRange : ZskiplistNode Score → Nat → Bool) (path : List (Place × Nat)) :
    Nat → Zskiplist Score → Option Nat → Nat → Checked (Zskiplist Score × List Sds)
  | _, zsl, none, _ => .ok (zsl, [])
  | fuel, zsl, some x, rank => do
      let node ← loadNode zsl x
      if inRange node rank then
        match fuel with
        | 0 => throw .outOfFuel
        | fuel + 1 => do
            let next := (← readLevel zsl (.node x) 0).forward
            let zsl := zslFreeNode (← zslDeleteNode zsl x path) x
            let (zsl, removed) ← deleteWhile inRange path fuel zsl next (rank + 1)
            return (zsl, node.ele :: removed)
      else return (zsl, [])

/-- A search and the loop that deletes the nodes after it. -/
def deleteRange (ahead inRange : ZskiplistNode Score → Nat → Bool) : Checked (Zskiplist Score × List Sds) := do
  let path ← search zsl ahead
  let traversed := (← readCell path 0).2
  deleteWhile inRange path zsl.length zsl (← found zsl path) (traversed + 1)

def zslDeleteRangeByScore (range : Zrangespec Score) : Checked (Zskiplist Score × List Sds) :=
  deleteRange zsl (fun node _ => !zslValueGteMin node.score range) fun node _ => zslValueLteMax node.score range

def zslDeleteRangeByLex (range : Zlexrangespec) : Checked (Zskiplist Score × List Sds) :=
  deleteRange zsl (fun node _ => !zslLexValueGteMin node.ele range) fun node _ => zslLexValueLteMax node.ele range

/-- The ranks start at 1. -/
def zslDeleteRangeByRank (start stop : Nat) : Checked (Zskiplist Score × List Sds) :=
  deleteRange zsl (fun _ rank => decide (rank < start)) fun _ rank => decide (rank ≤ stop)
end Ranges
end Redis.SortedSet

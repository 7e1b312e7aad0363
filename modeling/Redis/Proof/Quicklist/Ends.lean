/-
This file shows that the ends of a list are never left compressed, so that no assertion on
the compression fails.
-/

import Redis.Proof.Quicklist.Flags

namespace Redis.NodeList
open Foundation Listpack List
variable {setup : Setup} {ql ql' : Quicklist} {node node' : QuicklistNode} {index : Nat} {marked held : Nat → Prop}
variable {entry : QuicklistEntry} {iter : QuicklistIter}

/-- The ends lie within the compress depth. -/
theorem Steady.edge (steady : Steady setup ql marked held) (found : ql.nodes[index]? = some node)
    (edge : index = 0 ∨ index + 1 = ql.nodes.length) : node.encoding = .raw ∧ node.recompress = false := by
  refine steady.outer index node found ?_
  unfold Quicklist.inner Inner
  omega

section Push
variable (settled : Settled setup ql)
include settled
theorem Settled.insertPlainNode {old : Option Nat} (value : List UInt8) (after : Bool)
    (valid : ∀ k, old = some k → k < ql.nodes.length) (empty : old = none → ql.nodes = []) :
    Flagged (quicklistInsertPlainNode setup ql old value after) (Settled setup) := by
  rw [quicklistInsertPlainNode]
  refine (flagged_createNode _ _).bind fun node fresh => ?_
  refine (settled.insertNode after valid empty fresh).bind fun result next => ?_
  exact next.setCount _

theorem Settled.growNode (add : Memory → Checked (Option Memory)) (edge : index = 0 ∨ index + 1 = ql.nodes.length) :
    Flagged (growNode ql index add) fun ql' => Settled setup ql' ∧ ql'.nodes.length = ql.nodes.length := by
  rw [NodeList.growNode]
  refine (flagged_readNode ql index).bind fun node found => ?_
  refine (flagged_memory _).bind fun _ _ => (flagged_nonNull _).bind fun entry _ => ?_
  refine (flagged_updateSz _).bind fun node' same => ?_
  exact ⟨Steady.update settled found (settled.edge found edge).1 same, length_set⟩

theorem Settled.countEdge (edge : index = 0 ∨ index + 1 = ql.nodes.length) :
    Flagged (countElement ql index) (Settled setup) :=
  Steady.addCount settled index fun _ found => (settled.edge found edge).1

theorem Settled.pushHead (value : List UInt8) :
    Flagged (quicklistPushHead setup ql value) fun result => Settled setup result.1 := by
  rw [quicklistPushHead]
  split
  · refine (settled.insertPlainNode value false (fun k same => ?_) head_none).bind fun ql' next => next
    have := head_valid same
    omega
  split
  · refine (settled.growNode _ (.inl rfl)).bind fun ql₁ ⟨settled₁, _⟩ => ?_
    exact (settled₁.countEdge (.inl rfl)).bind fun ql₂ settled₂ => settled₂
  · refine (flagged_newListpackNode value).bind fun node fresh => ?_
    refine (settled.insertHead false fresh).bind fun result settled₁ => ?_
    exact (Settled.countEdge settled₁ (.inl rfl)).bind fun ql₂ settled₂ => settled₂

theorem Settled.countLast : Flagged (countElement ql (ql.nodes.length - 1)) (Settled setup) := by
  refine settled.countEdge ?_
  omega

theorem Settled.pushTail (value : List UInt8) :
    Flagged (quicklistPushTail setup ql value) fun result => Settled setup result.1 := by
  rw [quicklistPushTail]
  split
  · refine (settled.insertPlainNode value true (fun k same => ?_) tail_none).bind fun ql' next => next
    have := tail_valid same
    omega
  split
  · refine (settled.growNode _ (by omega)).bind fun ql₁ ⟨settled₁, _⟩ => ?_
    exact settled₁.countLast.bind fun ql₂ settled₂ => settled₂
  · refine (flagged_memory _).bind fun _ _ => (flagged_nonNull _).bind fun entry _ => ?_
    refine (flagged_updateSz _).bind fun node same => ?_
    refine (settled.insertTail true (same.fresh ⟨rfl, rfl, rfl⟩)).bind fun result settled₁ => ?_
    exact (Settled.countLast settled₁).bind fun ql₂ settled₂ => settled₂

theorem Settled.push (value : List UInt8) (position : Direction) :
    Flagged (quicklistPush setup ql value position) (Settled setup) := by
  unfold quicklistPush
  refine (flagged_assert ?_).bind fun _ _ => (flagged_assert ?_).bind fun _ _ => ?_
  · intro node head
    rw [head?_eq_getElem?] at head
    simp [(settled.edge head (.inl rfl)).1]
  · intro node last
    rw [getLast?_eq_getElem?] at last
    simp [(settled.edge last (by omega)).1]
  · cases position with
    | head => exact (settled.pushHead value).bind fun _ next => next
    | tail => exact (settled.pushTail value).bind fun _ next => next

theorem Settled.appendListpack (zl : Memory) : Flagged (quicklistAppendListpack setup ql zl) (Settled setup) := by
  rw [quicklistAppendListpack]
  refine (flagged_memory _).bind fun _ _ => (flagged_updateSz _).bind fun node same => ?_
  refine (settled.insertTail true (same.fresh ⟨rfl, rfl, rfl⟩)).bind fun result next => ?_
  exact Steady.setCount next _

theorem Settled.appendPlainNode (data : List UInt8) :
    Flagged (quicklistAppendPlainNode setup ql data) (Settled setup) := by
  rw [quicklistAppendPlainNode]
  refine (settled.insertTail true ⟨rfl, rfl, rfl⟩).bind fun result next => ?_
  exact Steady.setCount next _

theorem Settled.popCustom (position : Direction) :
    Flagged (quicklistPopCustom setup ql position) fun result => Settled setup result.1 := by
  unfold quicklistPopCustom
  split
  · exact settled
  split
  · exact settled
  · rename_i index pointer
    have edge : index = 0 ∨ index + 1 = ql.nodes.length := by
      cases position with
      | head => exact .inl (head_valid pointer).1
      | tail => have := tail_valid pointer; omega
    refine (flagged_readNode ql index).bind fun node found => ?_
    have raw := (settled.edge found edge).1
    have deleted (p : Nat) : Flagged (quicklistDelIndex setup ql index p) fun result => Settled setup result.1 := by
      refine (Steady.delIndex settled found raw p (fun _ => False.elim) fun _ => False.elim).mono ?_
      rintro ⟨ql', gone⟩ ⟨yes, no⟩
      cases gone with
      | true => exact yes rfl
      | false => exact (no rfl).1
    refine (flagged_assert (by simp [raw])).bind fun _ _ => ?_
    split
    · refine (flagged_memory _).bind fun data _ => (deleted 0).bind fun result next => next
    · refine (flagged_memory _).bind fun _ _ => (flagged_nonNull _).bind fun p _ => ?_
      exact (flagged_memory _).bind fun data _ => (deleted p).bind fun result next => next
end Push

/-- At most the current node of an iterator is marked, and it is uncompressed in use. -/
structure Iterating (setup : Setup) (ql : Quicklist) (iter : QuicklistIter) : Prop where
  steady : Steady setup ql (fun i => iter.current = some i) nowhere
  raw : iter.zi ≠ none → ∀ i, iter.current = some i → ∃ node, ql.nodes[i]? = some node ∧ node.encoding = .raw

/-- A filled entry is in the current node. -/
def Filled (ql : Quicklist) (iter : QuicklistIter) (entry : QuicklistEntry) : Prop :=
  iter.current = some entry.node ∧ ∃ node, ql.nodes[entry.node]? = some node ∧ node.encoding = .raw

theorem Iterating.steadyAt {k : Nat} (iterating : Iterating setup ql iter) (current : iter.current = some k) :
    Steady setup ql (· = k) nowhere :=
  iterating.steady.weaken (fun i same => by rw [current] at same; cases same; rfl) fun _ => id

theorem Settled.iterating (settled : Settled setup ql) (fresh : iter.zi = none) :
    Iterating setup ql iter := ⟨settled.steady, fun used => absurd fresh used⟩

theorem flagged_advance (node : QuicklistNode) (iter : QuicklistIter) : Flagged (advance node iter) fun _ => True := by
  rw [advance]
  split
  · split
    · trivial
    · exact (flagged_memory _).bind fun _ _ => trivial
  · split
    · trivial
    · split <;> exact (flagged_memory _).bind fun _ _ => trivial

/-- The number of recursive calls that remain. -/
def Enough (fuel length : Nat) (iter : QuicklistIter) : Prop :=
  ∀ k, iter.current = some k → k < length →
    (iter.direction = .head → length ≤ k + fuel) ∧ (iter.direction = .tail → k < fuel)

theorem Iterating.use {k : Nat} (iterating : Iterating setup ql iter) (current : iter.current = some k) :
    Flagged (if iter.zi = none then quicklistDecompressNodeForUse setup ql k else return ql) fun ql' =>
      Steady setup ql' (fun i => iter.current = some i) nowhere ∧ ql'.nodes.length = ql.nodes.length ∧
      ∃ node, ql'.nodes[k]? = some node ∧ node.encoding = .raw := by
  split
  · refine (iterating.steady.decompressForUse k).mono ?_
    rintro ql' ⟨steady, length, raw⟩
    refine ⟨steady.weaken ?_ fun _ => id, length, raw⟩
    rintro i (same | rfl)
    · exact same
    · exact current
  · exact ⟨iterating.steady, rfl, iterating.raw ‹_› k current⟩

/-- The next entry is in an uncompressed node, and the recursion ends. -/
theorem Iterating.quicklistNext (fuel : Nat) {ql : Quicklist} (iterating : Iterating setup ql iter)
    (enough : Enough fuel ql.nodes.length iter) :
    Flagged (quicklistNext setup fuel ql iter) fun result => Iterating setup result.1 result.2.1 ∧
      ∀ entry, result.2.2 = some entry → Filled result.1 result.2.1 entry := by
  induction fuel using Nat.strong_induction_on generalizing ql iter with
  | h fuel ih =>
    rw [NodeList.quicklistNext.eq_def]
    dsimp only
    cases current : iter.current with
    | none => exact ⟨iterating, nofun⟩
    | some k =>
      refine (iterating.use current).bind fun ql₁ ⟨steady₁, length₁, node, found, raw⟩ => ?_
      have inside := (List.getElem?_eq_some_iff.mp found).1
      rw [readNode_of found]
      refine (flagged_advance node iter).bind fun ⟨zi, offset⟩ _ => ?_
      cases zi with
      | some zi =>
        have value : Flagged (if node.container = .plain then memory (readBytes node.entry 0 node.sz)
            else memory (lpGet node.entry zi)) fun _ => True := by
          split <;> exact (flagged_memory _).mono fun _ _ => trivial
        refine value.bind fun value _ => ⟨⟨by rwa [current] at steady₁, ?_⟩, ?_⟩
        · rintro _ i same
          cases same
          exact ⟨node, found, raw⟩
        · rintro entry same
          cases same
          exact ⟨rfl, node, found, raw⟩
      | none =>
        obtain ⟨forward, backward⟩ := enough k current (by omega)
        obtain _ | fuel := fuel
        · cases direction : iter.direction with
          | head => have := forward direction; omega
          | tail => have := backward direction; omega
        refine (steady₁.compress k).bind fun ql₂ ⟨steady₂, recodes₂⟩ => ?_
        have settled₂ : Settled setup ql₂ :=
          steady₂.settled (fun i ⟨same, free⟩ => free (by rw [current] at same; cases same; rfl)) fun _ => id
        have length₂ := recodes₂.length
        cases direction : iter.direction with
        | head =>
          refine ih fuel (Nat.lt_succ_self fuel) (settled₂.iterating rfl) fun i same within => ?_
          have := forward direction
          simp only [Quicklist.next] at same
          split at same
          · cases same
            exact ⟨fun _ => by omega, fun other => by simp at other⟩
          · cases same
        | tail =>
          refine ih fuel (Nat.lt_succ_self fuel) (settled₂.iterating rfl) fun i same within => ?_
          have := backward direction
          simp only [prevIndex] at same
          split at same
          · cases same
          · cases same
            exact ⟨fun other => by simp at other, fun _ => by omega⟩

theorem Iterating.nextEntry (iterating : Iterating setup ql iter) :
    Flagged (nextEntry setup ql iter) fun result => Iterating setup result.1 result.2.1 ∧
      ∀ entry, result.2.2 = some entry → Filled result.1 result.2.1 entry :=
  iterating.quicklistNext _ fun _ _ within => ⟨fun _ => by omega, fun _ => within⟩

theorem flagged_getIteratorAtIdx (ql : Quicklist) (direction : Direction) (idx : Int) :
    Flagged (quicklistGetIteratorAtIdx ql direction idx) fun result => ∀ iter, result = some iter → iter.zi = none := by
  unfold quicklistGetIteratorAtIdx
  extract_lets forward index other seekForward seekIndex
  split
  · exact nofun
  split
  · exact nofun
  · refine (flagged_readNode ql _).bind fun node _ => ?_
    rintro iter same
    cases same
    cases direction <;> rfl

theorem Iterating.releaseIterator (steady : Steady setup ql (fun i => iter.current = some i) nowhere) :
    Flagged (quicklistReleaseIterator setup ql iter) (Settled setup) := by
  rw [quicklistReleaseIterator]
  cases current : iter.current with
  | none => exact steady.settled (fun i same => by simp [current] at same) fun _ => id
  | some k =>
    refine (steady.compress k).mono fun ql' ⟨next, _⟩ => next.settled (fun i ⟨same, free⟩ => free ?_) fun _ => id
    rw [current] at same
    cases same
    rfl

section Insert
theorem Steady.insertInNode (steady : Steady setup ql marked nowhere) (index : Nat)
    (add : Memory → Checked (Option Memory)) :
    Flagged (insertInNode setup ql index add) fun ql' =>
      Steady setup ql' (fun i => marked i ∧ i ≠ index) nowhere ∧ ql'.nodes.length = ql.nodes.length := by
  rw [NodeList.insertInNode]
  refine (steady.decompressForUse index).bind fun ql₁ ⟨steady₁, length₁, node, found, raw⟩ => ?_
  rw [readNode_of found]
  refine (flagged_memory _).bind fun _ _ => (flagged_nonNull _).bind fun entry _ => ?_
  refine (flagged_updateSz _).bind fun node' same => ?_
  have steady₂ : Steady setup (NodeList.setNode ql₁ index node') _ nowhere := steady₁.update found raw same
  refine (steady₂.recompressOnly index).mono fun ql₃ ⟨steady₃, recodes₃⟩ => ⟨steady₃.weaken ?_ fun _ => id, ?_⟩
  · rintro i ⟨mark | rfl, free⟩
    · exact ⟨mark, free⟩
    · exact (free rfl).elim
  · rw [recodes₃.length, NodeList.setNode, length_set, length₁]

/-- A node that is split and followed or preceded by a new node loses its mark. -/
theorem Steady.insertNext (steady : Steady setup ql (· = index) nowhere) (after : Bool) (old : index < ql.nodes.length)
    (fresh : Fresh node) :
    Flagged (quicklistInsertNode setup ql (some index) node after) fun result => Settled setup result.1 ∧
      result.2 < result.1.nodes.length := by
  refine (steady.insertNode after old fresh).mono fun result ⟨position, recodes, next⟩ => ⟨?_, ?_⟩
  · exact next.settled (fun i ⟨k, ⟨same, free⟩, _⟩ => free same) fun i ⟨k, hold, _⟩ => hold
  · rw [recodes.length, length_inserted node (newIndex_le after old), position]
    exact Nat.lt_succ_of_le (newIndex_le after old)

variable (steady : Steady setup ql (· = entry.node) nowhere)
include steady
theorem Steady.insertLarge (inside : entry.node < ql.nodes.length) (value : List UInt8) (after ends : Bool) :
    Flagged (insertLarge setup ql entry value after ends) fun result => Settled setup result.1 := by
  rw [NodeList.insertLarge]
  split
  · have plain : Flagged (quicklistInsertPlainNode setup ql (some entry.node) value after) (Settled setup) := by
      rw [quicklistInsertPlainNode]
      refine (flagged_createNode _ _).bind fun node fresh => ?_
      exact (steady.insertNext after inside fresh).bind fun result post => Steady.setCount post.1 _
    exact plain.bind fun ql' next => next
  · refine (steady.decompressForUse entry.node).bind ?_
    rintro ql₁ ⟨steady₁, length₁, node, found, raw⟩
    rw [readNode_of found]
    refine (flagged_splitNode _ _ _).bind ?_
    rintro ⟨orig, new⟩ ⟨same, fresh⟩
    have steady₂ : Steady setup (NodeList.setNode ql₁ entry.node orig) (· = entry.node) nowhere :=
      (steady₁.update found raw same).weaken (fun _ => (·.elim id id)) fun _ => id
    have inside₂ : entry.node < (NodeList.setNode ql₁ entry.node orig).nodes.length := by
      rwa [NodeList.setNode, length_set, length₁]
    refine (flagged_createNode _ _).bind fun large freshLarge => ?_
    refine (steady₂.insertNext after inside₂ freshLarge).bind ?_
    rintro ⟨ql₃, position⟩ ⟨settled₃, inside₃⟩
    refine (Settled.insertNode settled₃ after (fun k same => ?_) (fun none => by cases none) fresh).bind fun result next => ?_
    · cases same
      exact inside₃
    · exact Steady.setCount next _

theorem Steady.insertSplit (inside : entry.node < ql.nodes.length) (value : List UInt8) (after : Bool) :
    Flagged (insertSplit setup ql entry value after) (Settled setup) := by
  rw [NodeList.insertSplit]
  refine (steady.decompressForUse entry.node).bind ?_
  rintro ql₁ ⟨steady₁, length₁, node, found, raw⟩
  rw [readNode_of found]
  refine (flagged_splitNode _ _ _).bind ?_
  rintro ⟨orig, new⟩ ⟨same, fresh⟩
  have steady₂ : Steady setup (NodeList.setNode ql₁ entry.node orig) (· = entry.node) nowhere :=
    (steady₁.update found raw same).weaken (fun _ => (·.elim id id)) fun _ => id
  have inside₂ : entry.node < (NodeList.setNode ql₁ entry.node orig).nodes.length := by
    rwa [NodeList.setNode, length_set, length₁]
  refine (flagged_memory _).bind fun _ _ => (flagged_nonNull _).bind fun grown _ => ?_
  refine (flagged_updateSz _).bind fun new' same' => ?_
  refine (steady₂.insertNext after inside₂ (same'.fresh fresh)).bind ?_
  rintro ⟨ql₃, position⟩ ⟨settled₃, _⟩
  have near (center : Nat) : Steady setup ql₃ (Close False ql₃ center) nowhere := settled₃.steady
  refine (near _).mergeNodes.bind fun result next => ?_
  exact next.settled (fun _ close => close.1) fun _ => id

theorem Steady.insert (iter : QuicklistIter) (value : List UInt8) (after : Bool) :
    Flagged (quicklistInsert setup ql iter (some entry) value after) fun result => Settled setup result.1 := by
  unfold quicklistInsert
  refine (flagged_readNode ql entry.node).bind fun node found => ?_
  have inside := (List.getElem?_eq_some_iff.mp found).1
  split
  · exact (steady.insertLarge inside value after _).bind fun result next => next
  have own (add : Memory → Checked (Option Memory)) : Flagged (NodeList.insertInNode setup ql entry.node add) (Settled setup) := by
    refine (steady.insertInNode entry.node add).mono ?_
    rintro ql' ⟨next, _⟩
    exact next.settled (fun i mark => mark.2 mark.1) fun _ => id
  have neighbour (k : Nat) (add : Memory → Checked (Option Memory)) : Flagged (do
      let ql ← NodeList.insertInNode setup ql k add
      quicklistRecompressOnly setup ql entry.node) (Settled setup) := by
    refine (steady.insertInNode k add).bind ?_
    rintro ql₁ ⟨steady₁, _⟩
    refine (steady₁.recompressOnly entry.node).mono ?_
    rintro ql₂ ⟨steady₂, _⟩
    exact steady₂.settled (fun i mark => mark.2 mark.1.1) fun _ => id
  refine Outcome.bind (show Flagged _ (Settled setup) from ?_) fun ql' next => Steady.setCount next _
  split
  · exact own _
  split
  · exact neighbour _ _
  split
  · exact neighbour _ _
  split
  · refine (flagged_newListpackNode value).bind fun new fresh => ?_
    have flags : Fresh new.addCount := ⟨fresh.1, fresh.2.1, fresh.2.2⟩
    exact (steady.insertNext after inside flags).bind fun result post => post.1
  · exact steady.insertSplit inside value after

omit steady

theorem Settled.insertFirst (settled : Settled setup ql) (empty : ql.len = 0) (value : List UInt8) (after : Bool) :
    Flagged (insertFirst setup ql value after) (Settled setup) := by
  have nil : ql.nodes = [] := length_eq_zero_iff.mp (settled.len ▸ empty)
  rw [NodeList.insertFirst]
  split
  · exact settled.insertPlainNode value after (fun k same => by have := tail_valid same; omega) tail_none
  · refine (flagged_memory _).bind fun _ _ => (flagged_nonNull _).bind fun entry _ => ?_
    have fresh : Fresh { quicklistCreateNode with entry := entry } := ⟨rfl, rfl, rfl⟩
    refine (settled.insertOnly after nil fresh).bind ?_
    rintro ⟨ql₁, position⟩ ⟨rfl, settled₁⟩
    exact Settled.countEdge settled₁ (.inl rfl)
end Insert

/-- A held node stays as it is while nodes are inserted after it. -/
theorem Steady.insertHeld {k : Nat} (steady : Steady setup ql marked (· = k)) (marks : ∀ i, marked i → i = k)
    (found : ql.nodes[k]? = some node') (hold : node'.dontCompress = true) (raw : node'.encoding = .raw)
    (behind : k ≤ index) (old : index < ql.nodes.length) (fresh : Fresh node) :
    Flagged (quicklistInsertNode setup ql (some index) node true) fun result => result.2 = index + 1 ∧
      Steady setup result.1 marked (· = k) ∧ result.1.nodes[k]? = some node' ∧
      result.1.nodes.length = ql.nodes.length + 1 ∧ result.1.compress = ql.compress := by
  refine (steady.insertNode true old fresh).mono fun result ⟨position, recodes, next⟩ => ?_
  have same : movedUp (newIndex true index) k = k := if_pos (Nat.lt_succ_of_le behind)
  refine ⟨position, next.weaken ?_ ?_, ?_, ?_, recodes.compress⟩
  · rintro i ⟨j, ⟨mark, _⟩, rfl⟩
    rw [marks j mark, same]
    exact marks j mark ▸ mark
  · rintro i ⟨j, rfl, rfl⟩
    exact same
  · have before : (NodeList.inserted ql (newIndex true index) node).nodes[k]? = some node' :=
      (getElem?_insertIdx_of_lt (Nat.lt_succ_of_le behind)).trans found
    obtain ⟨other, found', recoded⟩ := recodes.forward before
    rw [found', recoded.held hold raw]
  · rw [recodes.length, length_inserted node (newIndex_le true old)]

theorem Inner.mono {depth length length' i : Nat} (inner : Inner depth length i) (longer : length ≤ length') :
    Inner depth length' i := ⟨inner.1, inner.2.1, inner.2.2.trans_le longer⟩

theorem Steady.release (steady : Steady setup ql marked held) (found : ql.nodes[index]? = some node)
    (holds : ∀ i, held i → i = index) :
    Steady setup (NodeList.setNode ql index { node with dontCompress := false }) marked nowhere := by
  have intact : Intact setup { node with dontCompress := false } := steady.intact node (mem_of_getElem? found)
  refine steady.setNode intact (fun outside => steady.outer index node found outside)
    ⟨(steady.flags index node found).1, by simp⟩ fun i different => ⟨id, fun hold => different (holds i hold)⟩

/-- The node with the old element is held while its neighbours are inserted. -/
theorem Steady.replaceInNewNode (steady : Steady setup ql (· = entry.node) nowhere)
    (found : ql.nodes[entry.node]? = some node) (raw : node.encoding = .raw) (data : List UInt8) :
    Flagged (replaceInNewNode setup ql entry data) (Settled setup) := by
  have inside := (List.getElem?_eq_some_iff.mp found).1
  rw [NodeList.replaceInNewNode, readNode_of found, ok_bind]
  dsimp only
  refine Outcome.bind (show Flagged _ fun result : QuicklistNode × Option QuicklistNode =>
    SameFlags { node with dontCompress := true } result.1 ∧ ∀ new, result.2 = some new → Fresh new from ?_) ?_
  · split
    · refine (flagged_splitNode _ _ _).bind ?_
      rintro result ⟨same, fresh⟩
      refine ⟨same, ?_⟩
      rintro new is
      cases is
      exact fresh
    · exact ⟨⟨rfl, rfl, rfl⟩, fun _ none => by cases none⟩
  rintro ⟨x, splitNode⟩ ⟨same, freshSplit⟩
  have rawX : x.encoding = .raw := same.1.trans raw
  -- only a node beyond the compress depth can be marked
  have deep (mark : x.recompress = true) : ql.inner entry.node := steady.inner found (same.2.1.symm.trans mark)
  have steady₁ : Steady setup (NodeList.setNode ql entry.node x) (fun i => i = entry.node ∧ x.recompress = true)
      (· = entry.node) :=
    (steady.weaken (fun _ => id) fun _ => False.elim).setRaw rawX (fun mark => ⟨deep mark, rfl, mark⟩) (fun _ => rfl)
      fun _ different same => absurd same different
  have found₁ : (NodeList.setNode ql entry.node x).nodes[entry.node]? = some x := getElem?_set_self inside
  have inside₁ : entry.node < (NodeList.setNode ql entry.node x).nodes.length := by
    rwa [NodeList.setNode, length_set]
  refine (flagged_createNode _ _).bind fun new fresh => ?_
  refine (steady₁.insertHeld (fun _ mark => mark.1) found₁ same.2.2 rawX le_rfl inside₁ fresh).bind ?_
  rintro ⟨ql₂, position⟩ ⟨rfl, steady₂, found₂, length₂, compress₂⟩
  rw [NodeList.setNode, length_set] at length₂
  refine Outcome.bind (show Flagged _ fun ql₃ : Quicklist =>
    Steady setup ql₃ (fun i => i = entry.node ∧ x.recompress = true) (· = entry.node) ∧
    ql₃.nodes[entry.node]? = some x ∧ ql.nodes.length + 1 ≤ ql₃.nodes.length ∧ ql₃.compress = ql.compress from ?_) ?_
  · cases splitNode with
    | none => exact ⟨steady₂, found₂, length₂.ge, compress₂⟩
    | some splitNode =>
      refine (steady₂.insertHeld (fun _ mark => mark.1) found₂ same.2.2 rawX (Nat.le_succ _) (by omega)
        (freshSplit splitNode rfl)).bind ?_
      rintro result ⟨_, steady₃, found₃, length₃, compress₃⟩
      exact ⟨steady₃, found₃, by omega, compress₃.trans compress₂⟩
  rintro ql₃ ⟨steady₃, found₃, length₃, compress₃⟩
  have counted := steady₃.setCount (ql₃.count + 1)
  have found₃ : ({ ql₃ with count := ql₃.count + 1 } : Quicklist).nodes[entry.node]? = some x := found₃
  rw [readNode_of found₃, ok_bind]
  split
  · exact (counted.delNode_settled entry.node (fun _ mark => mark.1) fun _ => id).mono fun _ next => next.1
  refine (flagged_memory _).bind fun _ _ => (flagged_nonNull _).bind fun p _ => ?_
  refine (counted.delIndex found₃ rawX p (fun _ mark => mark.1) fun _ => id).bind ?_
  rintro ⟨ql₄, gone⟩ ⟨yes, no⟩
  dsimp only at yes no ⊢
  refine (flagged_readNode ql₄ entry.node).bind fun node₄ found₄ => ?_
  have steady₅ : Steady setup (NodeList.setNode ql₄ entry.node { node₄ with dontCompress := false })
      (Close True (NodeList.setNode ql₄ entry.node { node₄ with dontCompress := false }) (entry.node + 1)) nowhere := by
    cases gone with
    | true => exact (Steady.release (yes rfl) found₄ fun _ => False.elim).weaken (fun _ => False.elim) fun _ => id
    | false =>
      obtain ⟨steady₄, length₄, compress₄⟩ := no rfl
      refine (steady₄.release found₄ fun _ => id).weaken ?_ fun _ => id
      rintro i ⟨rfl, mark⟩
      refine ⟨trivial, rfl, ?_⟩
      rw [NodeList.setNode, length_set]
      rw [compress₄]
      rw [compress₃]
      exact (deep mark).mono (by omega)
  refine steady₅.mergeNodes.bind ?_
  rintro ⟨ql₆, new₆⟩ steady₆
  refine (steady₆.compress new₆).bind ?_
  rintro ql₇ ⟨steady₇, _⟩
  refine (flagged_nonNull _).bind fun prev before => ?_
  refine (steady₇.compress prev).bind ?_
  rintro ql₈ ⟨steady₈, _⟩
  have settled₈ : Settled setup ql₈ := by
    refine steady₈.settled ?_ fun _ => id
    rintro i ⟨⟨⟨_, close, _⟩, _⟩, free⟩
    refine free ?_
    rw [prevIndex] at before
    split at before
    · cases before
    · cases before
      omega
  split
  · refine (Steady.compress settled₈ _).mono ?_
    rintro ql₉ ⟨steady₉, _⟩
    exact steady₉.settled (fun _ mark => mark.1) fun _ => id
  · exact settled₈

theorem Steady.replaceEntry (steady : Steady setup ql (· = entry.node) nowhere)
    (filled : ∃ node, ql.nodes[entry.node]? = some node ∧ node.encoding = .raw) (iter : QuicklistIter)
    (data : List UInt8) :
    Flagged (quicklistReplaceEntry setup ql iter entry data) fun result => Settled setup result.1 ∧
      result.2 = resetIterator iter := by
  obtain ⟨node, found, raw⟩ := filled
  rw [quicklistReplaceEntry, readNode_of found]
  -- an entry that is replaced in its node
  have inPlace {node' : QuicklistNode} (same : SameFlags node node') :
      Flagged (quicklistCompress setup (NodeList.setNode ql entry.node node') entry.node) (Settled setup) := by
    have next : Steady setup (NodeList.setNode ql entry.node node') (· = entry.node) nowhere := steady.update found raw same
    refine (next.compress entry.node).mono fun ql' ⟨last, _⟩ => ?_
    exact last.settled (fun i ⟨mark, free⟩ => free mark) fun _ => id
  have replaced : Flagged (if node.container = .packed ∧ ¬ isLargeElement setup data.length then
      memory (lpReplace node.entry entry.zi data) else return none) fun _ => True := by
    split
    · exact (flagged_memory _).mono fun _ _ => trivial
    · trivial
  refine replaced.bind fun replaced _ => ?_
  refine Outcome.bind (show Flagged _ (Settled setup) from ?_) fun ql' next => ⟨next, rfl⟩
  split
  · refine (flagged_updateSz _).bind fun node' same => ?_
    exact inPlace same
  · split
    · split
      · exact inPlace ⟨rfl, rfl, rfl⟩
      · refine (steady.insert iter data true).bind fun result next => ?_
        exact (next.delNode_settled entry.node (fun _ => False.elim) fun _ => False.elim).mono fun _ last => last.1
    · exact steady.replaceInNewNode found raw data

theorem Settled.replaceAtIndex (settled : Settled setup ql) (index : Int) (data : List UInt8) :
    Flagged (quicklistReplaceAtIndex setup ql index data) fun result => Settled setup result.1 := by
  have entryAt : Flagged (quicklistGetIteratorEntryAtIdx setup ql index) fun result => match result.2 with
      | none => Settled setup result.1
      | some (iter, entry) => Iterating setup result.1 iter ∧ Filled result.1 iter entry := by
    unfold quicklistGetIteratorEntryAtIdx
    refine (flagged_getIteratorAtIdx ql .tail index).bind fun found fresh => ?_
    cases found with
    | none => exact settled
    | some iter =>
      refine (settled.iterating (fresh iter rfl)).nextEntry.bind fun ⟨ql', iter', entry⟩ ⟨iterating, filled⟩ => ?_
      cases entry with
      | none => exact .inr rfl
      | some entry => exact ⟨iterating, filled entry rfl⟩
  unfold quicklistReplaceAtIndex
  refine entryAt.bind fun ⟨ql₁, found⟩ post => ?_
  cases found with
  | none => exact post
  | some pair =>
    obtain ⟨iter, entry⟩ := pair
    obtain ⟨iterating, current, filled⟩ := post
    refine ((iterating.steadyAt current).replaceEntry filled iter data).bind fun ⟨ql₂, iter₂⟩ ⟨settled₂, reset⟩ => ?_
    refine Outcome.bind (show Flagged _ (Settled setup) from ?_) fun ql₃ settled₃ => settled₃
    exact Iterating.releaseIterator settled₂.steady

/-- The loop ends, since each step deletes a node or moves to the next one. -/
theorem Settled.delRangeLoop (fuel : Nat) (settled : Settled setup ql) {offset : Int} {extent : Nat}
    (enough : ql.nodes.length < index + fuel) (positive : 0 < fuel) :
    Flagged (delRangeLoop setup fuel ql index offset extent) (Settled setup) := by
  induction fuel generalizing ql index offset extent with
  | zero => omega
  | succ fuel ih =>
    cases extent with
    | zero =>
      rw [NodeList.delRangeLoop]
      exact settled
    | succ extent =>
      rw [NodeList.delRangeLoop]
      refine (flagged_nonNull _).bind fun node found => ?_
      have inside := (List.getElem?_eq_some_iff.mp found).1
      extract_lets entire del
      split
      · refine (settled.delNode_settled index (fun _ => False.elim) fun _ => False.elim).bind ?_
        rintro ql₁ ⟨settled₁, length₁⟩
        exact ih settled₁ (by omega) (by omega)
      · refine (Steady.decompressForUse settled index).bind ?_
        rintro ql₁ ⟨steady₁, length₁, node₁, found₁, raw₁⟩
        rw [readNode_of found₁]
        refine (flagged_memory _).bind fun entry _ => (flagged_updateSz _).bind fun node₂ same => ?_
        generalize (node₂.count + 2 ^ 16 - del) % 2 ^ 16 = count
        have steady₂ : Steady setup (setNode { ql₁ with count := subtract ql₁.count del } index
            { node₂ with count := count }) (fun i => nowhere i ∨ i = index) nowhere :=
          (steady₁.setCount _).update found₁ raw₁ same
        have length₂ : (setNode { ql₁ with count := subtract ql₁.count del } index
            { node₂ with count := count }).nodes.length = ql.nodes.length := by
          rw [setNode, length_set, length₁]
        dsimp only
        split
        · refine (steady₂.delNode_settled index (fun _ => (·.elim False.elim id)) fun _ => False.elim).bind ?_
          rintro ql₃ ⟨settled₃, length₃⟩
          exact ih settled₃ (by omega) (by omega)
        · refine (steady₂.recompressOnly index).bind ?_
          rintro ql₃ ⟨steady₃, recodes₃⟩
          have length₃ := recodes₃.length
          refine ih (steady₃.settled ?_ fun _ => id) (by omega) (by omega)
          rintro i ⟨never | same, free⟩
          · exact never
          · exact free same

theorem Settled.delRange (settled : Settled setup ql) (start count : Int) :
    Flagged (quicklistDelRange setup ql start count) fun result => Settled setup result.1 := by
  unfold quicklistDelRange
  split
  · exact settled
  refine (flagged_getIteratorAtIdx ql .tail start).bind fun found _ => ?_
  cases found with
  | none => exact settled
  | some iter =>
    refine (flagged_nonNull _).bind fun node _ => ?_
    refine (Iterating.releaseIterator settled.steady).bind fun ql₁ settled₁ => ?_
    exact (settled₁.delRangeLoop _ (by omega) (Nat.succ_pos _)).bind fun ql₂ settled₂ => settled₂

/-- The condition under which `__quicklistCompress` does nothing. -/
def Early (ql : Quicklist) : Prop := ql.compress = 0 ∨ ql.nodes.length < ql.compress * 2

/-- No node is marked or held. -/
def Clear (ql : Quicklist) : Prop := ∀ node ∈ ql.nodes, node.recompress = false ∧ node.dontCompress = false

/-- The part of the flags that also holds while a list is copied. -/
structure Copied (setup : Setup) (raw : Prop) (ql : Quicklist) : Prop where
  len : ql.len = ql.nodes.length
  intact : AllIntact setup ql
  clear : Clear ql
  early : Early ql → raw → ∀ node ∈ ql.nodes, node.encoding = .raw
  late : ¬ Early ql → Outer ql

theorem Recodes.clear (recodes : Recodes setup ql ql') (clear : Clear ql) : Clear ql' := by
  intro node' member
  obtain ⟨i, found⟩ := mem_iff_getElem?.mp member
  obtain ⟨node, found', recoded⟩ := recodes.back found
  obtain ⟨unmarked, free⟩ := clear node (mem_of_getElem? found')
  exact ⟨recoded.unmarked unmarked, recoded.dontCompress.trans free⟩

/-- The macro `quicklistCompress` on a list without marks. -/
theorem compress_clear (len : ql.len = ql.nodes.length) (intact : AllIntact setup ql) (clear : Clear ql) (index : Nat) :
    Flagged (quicklistCompress setup ql index) fun ql' => Recodes setup ql ql' ∧ (Early ql → ql' = ql) ∧
      (¬ Early ql → Outer ql') := by
  rw [quicklistCompress]
  refine (flagged_readNode ql index).bind fun node found => ?_
  rw [(clear node (mem_of_getElem? found)).1, if_neg Bool.false_ne_true]
  by_cases early : Early ql
  · rw [compressList]
    split
    · exact ⟨.refl ql, fun _ => rfl, fun late => absurd early late⟩
    refine (flagged_readNode ql 0).bind fun head headFound => (flagged_readNode ql _).bind fun tail tailFound => ?_
    refine (flagged_assert ?_).bind fun _ _ => ?_
    · exact ⟨(clear head (mem_of_getElem? headFound)).1, (clear tail (mem_of_getElem? tailFound)).1⟩
    · rw [if_pos (by rw [len]; exact early)]
      exact ⟨.refl ql, fun _ => rfl, fun late => absurd early late⟩
  · have ready : Ready ql := fun i other found _ =>
      ⟨(clear other (mem_of_getElem? found)).1, fun early' => absurd early' early⟩
    refine (compressList_outcome intact len ready).mono ?_
    rintro ql' ⟨recodes, outer, _⟩
    exact ⟨recodes, fun early' => absurd early' early, fun _ => outer⟩

theorem copied_compress {raw : Prop} (len : ql.len = ql.nodes.length) (intact : AllIntact setup ql) (clear : Clear ql)
    (early : Early ql → raw → ∀ node ∈ ql.nodes, node.encoding = .raw) (index : Nat) :
    Flagged (quicklistCompress setup ql index) fun ql' => Copied setup raw ql' ∧ ql'.compress = ql.compress ∧
      ql'.nodes.length = ql.nodes.length := by
  refine (compress_clear len intact clear index).mono fun ql' ⟨recodes, same, outer⟩ => ?_
  have length := recodes.length
  have compress := recodes.compress
  have still : Early ql' ↔ Early ql := by rw [Early, Early, length, compress]
  refine ⟨⟨by rw [recodes.len, length, len], recodes.intact intact, recodes.clear clear, fun before => ?_,
    fun late => outer (mt still.mpr late)⟩, compress, length⟩
  rw [same (still.mp before)]
  exact early (still.mp before)

/-- A copied node can be compressed while it is the tail of the copy. -/
theorem Copied.insertTail {raw : Prop} (copied : Copied setup raw ql) (new : Intact setup node)
    (clear : node.recompress = false ∧ node.dontCompress = false) (rawNew : raw → node.encoding = .raw) :
    Flagged (quicklistInsertNode setup ql ql.tail node true) fun result => Copied setup raw result.1 ∧
      result.1.compress = ql.compress ∧ result.1.nodes.length = ql.nodes.length + 1 := by
  have append (index : Nat) {property : QuicklistNode → Prop} (all : ∀ other ∈ ql.nodes, property other)
      (holds : property node) : ∀ other ∈ (inserted ql index node).nodes, property other := forall_inserted all holds
  cases pointer : ql.tail with
  | none =>
    have nil := tail_none pointer
    have empty : ql.len = 0 := by rw [copied.len, nil]; rfl
    unfold quicklistInsertNode
    rw [empty]
    have only {property : QuicklistNode → Prop} (holds : property node) : ∀ other ∈ [node], property other := by
      simpa using holds
    have intact : AllIntact setup { ql with nodes := [node], len := 0 + 1 } := only new
    have first := copied_compress rfl intact (only clear) (fun _ holds => only (rawNew holds)) 0
    refine first.bind fun ql₁ ⟨copied₁, compress₁, length₁⟩ => ?_
    exact ⟨copied₁, compress₁, by rw [length₁, nil]; rfl⟩
  | some last =>
    obtain ⟨rfl, nonempty⟩ := tail_valid pointer
    have within : ql.nodes.length - 1 + 1 ≤ ql.nodes.length := by omega
    have length := length_inserted node within
    have early : Early (inserted ql (ql.nodes.length - 1 + 1) node) → raw →
        ∀ other ∈ (inserted ql (ql.nodes.length - 1 + 1) node).nodes, other.encoding = .raw := by
      intro before holds
      have before' : Early ql := by
        unfold Early at before ⊢
        rw [length] at before
        exact before.imp_right fun less => (Nat.lt_succ_self _).trans less
      exact append _ (copied.early before' holds) (rawNew holds)
    have first (k : Nat) : Flagged (quicklistCompress setup (inserted ql (ql.nodes.length - 1 + 1) node) k) _ :=
      copied_compress (by rw [length, ← copied.len]; rfl) (append _ copied.intact new) (append _ copied.clear clear) early k
    refine (first _).bind fun ql₁ ⟨copied₁, compress₁, length₁⟩ => ?_
    refine (copied_compress copied₁.len copied₁.intact copied₁.clear copied₁.early _).bind
      fun ql₂ ⟨copied₂, compress₂, length₂⟩ => ?_
    exact ⟨copied₂, compress₂.trans compress₁, by rw [length₂, length₁, length]⟩

theorem Copied.dupLoop {raw : Prop} (nodes : List QuicklistNode) (copied : Copied setup raw ql)
    (intact : ∀ node ∈ nodes, Intact setup node) (rawAll : raw → ∀ node ∈ nodes, node.encoding = .raw) :
    Flagged (dupLoop setup nodes ql) fun ql' => Copied setup raw ql' ∧ ql'.compress = ql.compress ∧
      ql'.nodes.length = ql.nodes.length + nodes.length := by
  induction nodes generalizing ql with
  | nil => exact ⟨copied, rfl, rfl⟩
  | cons current nodes ih =>
    rw [NodeList.dupLoop]
    refine Outcome.bind (show Flagged _ fun entry => current.encoding = .lzf → entry = current.entry from ?_) ?_
    · cases encoding : current.encoding with
      | lzf => exact fun _ => rfl
      | raw => exact (flagged_memory _).mono fun _ _ other => by cases other
    intro entry same
    have counted : Copied setup raw { ql with count := ql.count + current.count } :=
      ⟨copied.len, copied.intact, copied.clear, copied.early, copied.late⟩
    have new : Intact setup { quicklistCreateNode with
        entry := entry, count := current.count, sz := current.sz
        encoding := current.encoding, container := current.container } := by
      intro compressed
      refine ⟨rfl, ?_⟩
      obtain ⟨_, compresses⟩ := intact current mem_cons_self compressed
      rwa [same compressed]
    refine (counted.insertTail new ⟨rfl, rfl⟩ fun holds => rawAll holds current mem_cons_self).bind ?_
    rintro ⟨ql₁, _⟩ ⟨copied₁, compress₁, length₁⟩
    refine (ih copied₁ (forall_mem_cons.mp intact).2
      fun holds node member => rawAll holds node (mem_cons_of_mem _ member)).mono ?_
    rintro ql₂ ⟨copied₂, compress₂, length₂⟩
    refine ⟨copied₂, compress₂.trans compress₁, ?_⟩
    rw [length₂, length₁, length_cons]
    dsimp only
    omega

/-- A list that stays short is copied from a list without compressed nodes. -/
theorem Settled.dup (settled : Settled setup ql) : Flagged (quicklistDup setup ql) (Settled setup) := by
  rw [quicklistDup]
  have start : Copied setup (∀ node ∈ ql.nodes, node.encoding = .raw) (quicklistNew ql.fill ql.compress) :=
    ⟨rfl, nofun, nofun, fun _ _ => nofun, fun _ _ _ found => by simp [quicklistNew] at found⟩
  refine (start.dupLoop ql.nodes settled.intact fun all => all).mono fun copy ⟨copied, compress, length⟩ => ?_
  have shallow : copy.compress ≤ ql.compress ∧ (copy.compress = 0 → ql.compress = 0) := by
    rw [compress]
    change min (ql.compress : Int).toNat compressMax ≤ ql.compress ∧
      (min (ql.compress : Int).toNat compressMax = 0 → ql.compress = 0)
    unfold compressMax
    omega
  refine ⟨copied.len, copied.intact, ?_, ?_⟩
  · by_cases early : Early copy
    · have all : ∀ node ∈ ql.nodes, node.encoding = .raw := by
        intro node member
        obtain ⟨i, found⟩ := mem_iff_getElem?.mp member
        refine (settled.outer i node found ?_).1
        unfold Early at early
        unfold Quicklist.inner Inner
        omega
      intro i node found _
      have member := mem_of_getElem? found
      exact ⟨copied.early early all node member, (copied.clear node member).1⟩
    · exact copied.late early
  · intro i node found
    simp [copied.clear node (mem_of_getElem? found)]

/-- The flags between two calls of the client. -/
def ListState.Sound (setup : Setup) (state : ListState) : Prop :=
  match state.client with
  | .idle => Settled setup state.ql
  | .iterating iter status => Iterating setup state.ql iter ∧ ∀ entry, status = .filled entry → Filled state.ql iter entry
  | .spent _ => Settled setup state.ql

theorem idleStep_sound (settled : Settled setup ql) (op : QuicklistOp) :
    Flagged (idleStep setup ql op) fun result => result.1.Sound setup := by
  cases op with
  | pushHead value => exact (settled.pushHead value).bind fun _ next => next
  | pushTail value => exact (settled.pushTail value).bind fun _ next => next
  | push value position => exact (settled.push value position).bind fun _ next => next
  | pop position => exact (settled.popCustom position).bind fun _ next => next
  | appendListpack zl => exact (settled.appendListpack zl).bind fun _ next => next
  | appendPlainNode data => exact (settled.appendPlainNode data).bind fun _ next => next
  | delRange start count => exact (settled.delRange start count).bind fun _ next => next
  | replaceAtIndex index data => exact (settled.replaceAtIndex index data).bind fun _ next => next
  | dup => exact settled.dup.bind fun _ next => next
  | getIterator direction => exact ⟨settled.iterating (by cases direction <;> rfl), nofun⟩
  | getIteratorAtIdx direction idx =>
    refine (flagged_getIteratorAtIdx ql direction idx).bind fun found fresh => ?_
    cases found with
    | none => exact settled
    | some iter => exact ⟨settled.iterating (fresh iter rfl), nofun⟩
  | next | insertBefore _ | insertAfter _ | replaceEntry _ | delEntry | releaseIterator => exact settled

theorem insertStep_sound {status : EntryStatus} (iterating : Iterating setup ql iter)
    (filled : ∀ entry, status = .filled entry → Filled ql iter entry) (value : List UInt8) (after : Bool) :
    Flagged (insertStep setup ql iter status value after) fun result => result.1.Sound setup := by
  cases status with
  | unset => exact ⟨iterating, filled⟩
  | filled entry => exact ((iterating.steadyAt (filled entry rfl).1).insert iter value after).bind fun _ next => next
  | exhausted =>
    unfold insertStep
    dsimp only
    split
    · rename_i empty
      have nil : ql.nodes = [] := length_eq_zero_iff.mp (iterating.steady.len ▸ empty)
      have settled : Settled setup ql := by
        refine { iterating.steady with flags := fun i node found => ?_ }
        simp [nil] at found
      have inserted : Flagged (quicklistInsert setup ql iter none value after) fun result => Settled setup result.1 :=
        (settled.insertFirst empty value after).bind fun _ next => next
      exact inserted.bind fun _ next => next
    · exact ⟨iterating, filled⟩

theorem iterStep_sound {status : EntryStatus} (iterating : Iterating setup ql iter)
    (filled : ∀ entry, status = .filled entry → Filled ql iter entry) (op : QuicklistOp) :
    Flagged (iterStep setup ql iter status op) fun result => result.1.Sound setup := by
  cases op with
  | next =>
    refine iterating.nextEntry.bind fun ⟨ql', iter', entry⟩ ⟨iterating', filled'⟩ => ?_
    cases entry with
    | none => exact ⟨iterating', nofun⟩
    | some entry =>
      refine ⟨iterating', ?_⟩
      rintro other same
      cases same
      exact filled' entry rfl
  | insertBefore value => exact insertStep_sound iterating filled value false
  | insertAfter value => exact insertStep_sound iterating filled value true
  | replaceEntry data =>
    cases status with
    | filled entry =>
      obtain ⟨current, raw⟩ := filled entry rfl
      exact ((iterating.steadyAt current).replaceEntry raw iter data).bind fun _ next => next.1
    | unset | exhausted => exact ⟨iterating, filled⟩
  | delEntry =>
    cases status with
    | filled entry =>
      obtain ⟨current, node, found, raw⟩ := filled entry rfl
      have deleted : Flagged (quicklistDelEntry setup ql iter entry) fun result =>
          Iterating setup result.1 result.2 := by
        rw [quicklistDelEntry]
        refine ((iterating.steadyAt current).delIndex found raw entry.zi (fun _ => id) fun _ => False.elim).bind ?_
        rintro ⟨ql', gone⟩ ⟨yes, no⟩
        cases gone with
        | true => cases direction : iter.direction <;> exact (yes rfl).iterating rfl
        | false =>
          refine ⟨(no rfl).1.weaken (fun i same => ?_) fun _ => id, fun used => absurd rfl used⟩
          rw [same]
          exact current
      exact deleted.bind fun _ next => ⟨next, nofun⟩
    | unset | exhausted => exact ⟨iterating, filled⟩
  | releaseIterator => exact (Iterating.releaseIterator iterating.steady).bind fun _ next => next
  | pushHead _ | pushTail _ | push _ _ | pop _ | appendListpack _ | appendPlainNode _ | delRange _ _
  | replaceAtIndex _ _ | dup | getIterator _ | getIteratorAtIdx _ _ => exact ⟨iterating, filled⟩

theorem quicklistStep_sound (state : ListState) (op : QuicklistOp) (sound : state.Sound setup) :
    Flagged (quicklistStep setup state op) fun result => result.1.Sound setup := by
  obtain ⟨ql, client⟩ := state
  cases client with
  | idle => exact idleStep_sound sound op
  | iterating iter status => exact iterStep_sound sound.1 sound.2 op
  | spent iter =>
    have released : Flagged (do return ((⟨← quicklistReleaseIterator setup ql iter, .idle⟩, .done) :
        ListState × QuicklistOut)) fun result => result.1.Sound setup :=
      (Iterating.releaseIterator sound.steady).bind fun _ next => next
    cases op <;> first | exact released | exact sound

end Redis.NodeList

import Redis.Proof.Quicklist.Depth

namespace Redis.NodeList
open Foundation Listpack List
variable {setup : Setup} {ql ql' : Quicklist} {node node' : QuicklistNode} {index : Nat} {marked held : Nat → Prop}

/-- Every marked node has an index in one set, and every held node has an index in another. -/
structure Steady (setup : Setup) (ql : Quicklist) (marked held : Nat → Prop) : Prop where
  len : ql.len = ql.nodes.length
  intact : AllIntact setup ql
  outer : Outer ql
  flags : ∀ i node, ql.nodes[i]? = some node → (node.recompress = true → marked i) ∧ (node.dontCompress = true → held i)

def nowhere : Nat → Prop := fun _ => False

/-- A list without marked and held nodes. -/
def Settled (setup : Setup) (ql : Quicklist) : Prop := Steady setup ql nowhere nowhere

section Sets
variable {marked' held' : Nat → Prop}

theorem inner_setNode (i : Nat) : (setNode ql index node').inner i ↔ ql.inner i := by
  rw [Quicklist.inner, Quicklist.inner, setNode, length_set]

theorem Steady.weaken (steady : Steady setup ql marked held)
    (marks : ∀ i, marked i → marked' i) (holds : ∀ i, held i → held' i) : Steady setup ql marked' held' :=
  { steady with flags := fun i node found => (steady.flags i node found).imp (marks i ∘ ·) (holds i ∘ ·) }

theorem Steady.settled (steady : Steady setup ql marked held) (marks : ∀ i, ¬ marked i) (holds : ∀ i, ¬ held i) :
    Settled setup ql := steady.weaken marks holds

theorem Settled.steady (settled : Settled setup ql) : Steady setup ql marked held :=
  settled.weaken (fun _ => False.elim) (fun _ => False.elim)

variable (steady : Steady setup ql marked held)
include steady
theorem Steady.setCount (count : Nat) : Steady setup { ql with count := count } marked held :=
  ⟨steady.len, steady.intact, steady.outer, steady.flags⟩

theorem Steady.inner (found : ql.nodes[index]? = some node) (mark : node.recompress = true) : ql.inner index := by
  by_contra outside
  simp [(steady.outer index node found outside).2] at mark

theorem Steady.recodes (recodes : Recodes setup ql ql') (outer : Outer ql') : Steady setup ql' marked held := by
  refine ⟨by rw [recodes.len, recodes.length, steady.len], recodes.intact steady.intact, outer, ?_⟩
  intro i node' found
  obtain ⟨node, found', recoded⟩ := recodes.back found
  have flags := steady.flags i node found'
  exact ⟨fun mark => flags.1 (recoded.marked mark), fun hold => flags.2 (recoded.dontCompress.symm.trans hold)⟩

theorem Steady.setNode (intact : Intact setup node')
    (outer : ¬ ql.inner index → node'.encoding = .raw ∧ node'.recompress = false)
    (flags : (node'.recompress = true → marked' index) ∧ (node'.dontCompress = true → held' index))
    (others : ∀ i, i ≠ index → (marked i → marked' i) ∧ (held i → held' i)) :
    Steady setup (setNode ql index node') marked' held' := by
  have cases {i : Nat} {other : QuicklistNode} (found : (NodeList.setNode ql index node').nodes[i]? = some other) :
      i = index ∧ other = node' ∨ i ≠ index ∧ ql.nodes[i]? = some other := by
    by_cases same : i = index
    · subst same
      have inside := (List.getElem?_eq_some_iff.mp found).1
      rw [NodeList.setNode, length_set] at inside
      rw [NodeList.setNode, getElem?_set_self inside] at found
      cases found
      exact .inl ⟨rfl, rfl⟩
    · rw [NodeList.setNode, getElem?_set_ne (Ne.symm same)] at found
      exact .inr ⟨same, found⟩
  refine ⟨steady.len.trans length_set.symm, ?_, ?_, ?_⟩
  · intro other member
    obtain ⟨i, found⟩ := mem_iff_getElem?.mp member
    rcases cases found with ⟨_, rfl⟩ | ⟨_, found⟩
    · exact intact
    · exact steady.intact other (mem_of_getElem? found)
  · intro i other found outside
    rw [inner_setNode] at outside
    rcases cases found with ⟨rfl, rfl⟩ | ⟨_, found⟩
    · exact outer outside
    · exact steady.outer i other found outside
  · intro i other found
    rcases cases found with ⟨rfl, rfl⟩ | ⟨different, found⟩
    · exact flags
    · exact (steady.flags i other found).imp ((others i different).1 ∘ ·) ((others i different).2 ∘ ·)

theorem Steady.setRaw (raw : node'.encoding = .raw) (mark : node'.recompress = true → ql.inner index ∧ marked' index)
    (hold : node'.dontCompress = true → held index) (marks : ∀ i, i ≠ index → marked i → marked' i) :
    Steady setup (NodeList.setNode ql index node') marked' held := by
  refine steady.setNode (fun compressed => by simp [raw] at compressed) (fun outside => ⟨raw, ?_⟩)
    ⟨fun set => (mark set).2, hold⟩ fun i different => ⟨marks i different, id⟩
  by_contra set
  exact outside (mark (by simpa using set)).1
end Sets

section Compression
variable (steady : Steady setup ql marked held)
include steady
theorem Steady.unmark (unmarked : UnmarkedAt ql index) :
    Steady setup ql (fun i => marked i ∧ (i = index → held i)) held := by
  refine { steady with flags := fun i node found => ?_ }
  obtain ⟨mark, hold⟩ := steady.flags i node found
  refine ⟨fun set => ⟨mark set, ?_⟩, hold⟩
  rintro rfl
  by_contra free
  have clear := unmarked node found (by simpa using fun set => free (hold set))
  simp [clear] at set

theorem Steady.compress (index : Nat) : Flagged (quicklistCompress setup ql index) fun ql' =>
      Steady setup ql' (fun i => marked i ∧ (i = index → held i)) held ∧ Recodes setup ql ql' := by
  refine (quicklistCompress_outcome steady.intact steady.len steady.outer).mono ?_
  rintro ql' ⟨recodes, outer, unmarked⟩
  exact ⟨(steady.recodes recodes outer).unmark unmarked, recodes⟩

theorem Steady.recompressOnly (index : Nat) : Flagged (quicklistRecompressOnly setup ql index) fun ql' =>
      Steady setup ql' (fun i => marked i ∧ (i = index → held i)) held ∧ Recodes setup ql ql' := by
  refine (quicklistRecompressOnly_outcome steady.intact steady.outer).mono ?_
  rintro ql' ⟨recodes, outer, unmarked⟩
  exact ⟨(steady.recodes recodes outer).unmark unmarked, recodes⟩

theorem Steady.decompressForUse (index : Nat) : Flagged (quicklistDecompressNodeForUse setup ql index) fun ql' =>
      Steady setup ql' (fun i => marked i ∨ i = index) held ∧ ql'.nodes.length = ql.nodes.length ∧
      ∃ node, ql'.nodes[index]? = some node ∧ node.encoding = .raw := by
  cases found : ql.nodes[index]? with
  | none =>
    rw [quicklistDecompressNodeForUse, readNode, readCell, found]
    exact .inl ⟨_, rfl⟩
  | some node =>
    obtain ⟨node', decompressed, raw, dontCompress, mark⟩ :=
      quicklistDecompressNodeForUse_eq found (steady.intact node (mem_of_getElem? found))
    have inside := (List.getElem?_eq_some_iff.mp found).1
    rw [decompressed]
    refine ⟨?_, length_set, node', getElem?_set_self inside, raw⟩
    refine steady.setRaw raw (fun set => ⟨?_, .inr rfl⟩) (fun hold => ?_) fun _ _ => .inl
    · by_contra outside
      obtain ⟨uncompressed, unmarked⟩ := steady.outer index node found outside
      simpa [uncompressed, unmarked] using mark set
    · exact (steady.flags index node found).2 (dontCompress.symm.trans hold)
end Compression

/-- A node that is not compressed, marked, or held. -/
def Fresh (node : QuicklistNode) : Prop := node.encoding = .raw ∧ node.recompress = false ∧ node.dontCompress = false

def SameFlags (node node' : QuicklistNode) : Prop :=
  node'.encoding = node.encoding ∧ node'.recompress = node.recompress ∧ node'.dontCompress = node.dontCompress

theorem SameFlags.fresh (same : SameFlags node node') (fresh : Fresh node) : Fresh node' :=
  ⟨same.1.trans fresh.1, same.2.1.trans fresh.2.1, same.2.2.trans fresh.2.2⟩

theorem SameFlags.raw (same : SameFlags node node') (raw : node.encoding = .raw) : node'.encoding = .raw :=
  same.1.trans raw

theorem flagged_updateSz (node : QuicklistNode) : Flagged (quicklistNodeUpdateSz node) (SameFlags node) := by
  rw [quicklistNodeUpdateSz]
  exact (flagged_memory _).bind fun _ _ => ⟨rfl, rfl, rfl⟩

theorem flagged_countNode (node : QuicklistNode) : Flagged (countNode node) (SameFlags node) := by
  rw [countNode]
  exact (flagged_memory _).bind fun _ _ => flagged_updateSz _

theorem flagged_createNode (container : NodeContainer) (value : List UInt8) :
    Flagged (createNode container value) Fresh := by
  unfold createNode
  cases container with
  | plain => exact ⟨rfl, rfl, rfl⟩
  | packed =>
    have entry : Flagged (do nonNull (← memory (lpPrepend (lpNew 0) value))) fun _ => True :=
      (flagged_memory _).bind fun _ _ => (flagged_nonNull _).mono fun _ _ => trivial
    exact entry.bind fun _ _ => ⟨rfl, rfl, rfl⟩

theorem flagged_newListpackNode (value : List UInt8) : Flagged (newListpackNode value) Fresh := by
  rw [newListpackNode]
  refine (flagged_memory _).bind fun _ _ => (flagged_nonNull _).bind fun entry _ => ?_
  exact (flagged_updateSz _).mono fun _ same => same.fresh ⟨rfl, rfl, rfl⟩

theorem flagged_splitNode (node : QuicklistNode) (offset : Int) (after : Bool) :
    Flagged (quicklistSplitNode node offset after) fun result => SameFlags node result.1 ∧ Fresh result.2 := by
  rw [quicklistSplitNode]
  refine (flagged_memory _).bind fun copy _ => ?_
  refine (flagged_memory _).bind fun _ _ => (flagged_countNode _).bind fun orig same => ?_
  refine (flagged_memory _).bind fun _ _ => (flagged_countNode _).bind fun new same' => ?_
  exact ⟨same, same'.fresh ⟨rfl, rfl, rfl⟩⟩

theorem Steady.update (steady : Steady setup ql marked held) (found : ql.nodes[index]? = some node)
    (raw : node.encoding = .raw) (same : SameFlags node node') : Steady setup (NodeList.setNode ql index node') marked held := by
  obtain ⟨encoding, recompress, dontCompress⟩ := same
  refine steady.setRaw (encoding.trans raw) (fun mark => ?_) (fun hold => ?_) fun _ _ => id
  · rw [recompress] at mark
    exact ⟨steady.inner found mark, (steady.flags index node found).1 mark⟩
  · exact (steady.flags index node found).2 (dontCompress.symm.trans hold)

theorem Steady.addCount (steady : Steady setup ql marked held) (index : Nat) (raw : ∀ node, ql.nodes[index]? = some node → node.encoding = .raw) :
    Flagged (countElement ql index) fun ql' => Steady setup ql' marked held := by
  rw [countElement]
  refine (flagged_readNode ql index).bind fun node found => ?_
  have counted := steady.setCount (ql.count + 1)
  exact counted.update found (raw node found) ⟨rfl, rfl, rfl⟩

/-- The index of a node after the insertion of another one. -/
def movedUp (new i : Nat) : Nat := if i < new then i else i + 1

theorem getElem?_inserted {new i : Nat} {other : QuicklistNode}
    (found : (inserted ql new node).nodes[i]? = some other) :
    (i = new ∧ other = node) ∨ ∃ k, ql.nodes[k]? = some other ∧ i = movedUp new k := by
  unfold movedUp
  rcases Nat.lt_trichotomy i new with before | rfl | behind
  · rw [inserted, getElem?_insertIdx_of_lt before] at found
    exact .inr ⟨i, found, (if_pos before).symm⟩
  · rw [inserted, getElem?_insertIdx_self] at found
    split at found
    · cases found
      exact .inl ⟨rfl, rfl⟩
    · cases found
  · rw [inserted, getElem?_insertIdx_of_gt behind] at found
    exact .inr ⟨i - 1, found, by rw [if_neg (by omega)]; omega⟩

theorem Steady.inserted {new : Nat} (steady : Steady setup ql marked held) (inside : new ≤ ql.nodes.length)
    (fresh : Fresh node) :
    Steady setup (inserted ql new node) (fun i => ∃ k, marked k ∧ i = movedUp new k)
      (fun i => ∃ k, held k ∧ i = movedUp new k) := by
  obtain ⟨raw, unmarked, free⟩ := fresh
  refine ⟨?_, forall_inserted steady.intact fun compressed => by simp [raw] at compressed,
    outer_inserted steady.outer inside raw unmarked, ?_⟩
  · rw [length_inserted node inside, ← steady.len]
    rfl
  · intro i other found
    rcases getElem?_inserted found with ⟨_, rfl⟩ | ⟨k, found', rfl⟩
    · simp [unmarked, free]
    · exact (steady.flags k other found').imp (fun flag mark => ⟨k, flag mark, rfl⟩) fun flag hold => ⟨k, flag hold, rfl⟩

theorem movedUp_old (after : Bool) (index : Nat) : movedUp (newIndex after index) index = oldIndex after index := by
  unfold movedUp newIndex oldIndex
  split <;> split <;> omega

theorem movedUp_injective (new : Nat) : Function.Injective (movedUp new) := by
  intro i k same
  unfold movedUp at same
  split at same <;> split at same <;> omega

/-- The insertion next to a node removes the mark of the node unless it is held. -/
theorem Steady.insertNode (steady : Steady setup ql marked held) (after : Bool) (old : index < ql.nodes.length)
    (fresh : Fresh node) :
    Flagged (quicklistInsertNode setup ql (some index) node after) fun result =>
      result.2 = newIndex after index ∧ Recodes setup (NodeList.inserted ql (newIndex after index) node) result.1 ∧
      Steady setup result.1 (fun i => ∃ k, (marked k ∧ (k = index → held k)) ∧ i = movedUp (newIndex after index) k)
        (fun i => ∃ k, held k ∧ i = movedUp (newIndex after index) k) := by
  have start := steady.inserted (newIndex_le after old) fresh
  have first : Flagged (quicklistCompress setup (NodeList.inserted ql (newIndex after index) node) (oldIndex after index)) _ :=
    start.compress _
  refine first.bind fun ql₁ ⟨steady₁, recodes₁⟩ => ?_
  have second : Flagged (quicklistCompress setup ql₁ (newIndex after index)) _ := steady₁.compress _
  refine second.bind fun ql₂ ⟨steady₂, recodes₂⟩ => ?_
  refine ⟨rfl, recodes₁.trans recodes₂, steady₂.weaken (fun i => ?_) fun _ => id⟩
  rintro ⟨⟨⟨k, mark, rfl⟩, hold⟩, _⟩
  refine ⟨k, ⟨mark, ?_⟩, rfl⟩
  rintro rfl
  obtain ⟨k', hold', same⟩ := hold (movedUp_old after k)
  exact movedUp_injective _ same ▸ hold'

theorem Settled.insertOnly (settled : Settled setup ql) (after : Bool) (empty : ql.nodes = []) (fresh : Fresh node) :
    Flagged (quicklistInsertNode setup ql none node after) fun result => result.2 = 0 ∧ Settled setup result.1 := by
  have only : Settled setup { ql with nodes := [node], len := 1 } := by
    refine ⟨rfl, ?_, ?_, ?_⟩
    · intro other member
      rw [mem_singleton.mp member]
      exact fun compressed => by simp [fresh.1] at compressed
    all_goals
      intro i other found
      have same : other = node := by simpa using mem_of_getElem? found
      subst same
    · exact fun _ => ⟨fresh.1, fresh.2.1⟩
    · simp [fresh.2.1, fresh.2.2]
  rw [quicklistInsertNode, settled.len, empty]
  have compressed : Flagged (quicklistCompress setup { ql with nodes := [node], len := 1 } 0) _ := only.compress 0
  exact compressed.bind fun ql₁ next => ⟨rfl, next.1.settled (fun _ mark => mark.1) fun _ => id⟩

theorem Settled.insertNode {old : Option Nat} (settled : Settled setup ql) (after : Bool)
    (valid : ∀ k, old = some k → k < ql.nodes.length) (empty : old = none → ql.nodes = []) (fresh : Fresh node) :
    Flagged (quicklistInsertNode setup ql old node after) fun result => Settled setup result.1 := by
  cases old with
  | some index =>
    refine (Steady.insertNode settled after (valid index rfl) fresh).mono ?_
    rintro result ⟨_, _, steady⟩
    exact steady.settled (fun _ ⟨_, mark, _⟩ => mark.1) fun _ ⟨_, hold, _⟩ => hold
  | none => exact (settled.insertOnly after (empty rfl) fresh).mono fun _ only => only.2

theorem head_valid {k : Nat} (same : ql.head = some k) : k = 0 ∧ 0 < ql.nodes.length := by
  rw [Quicklist.head] at same
  split at same
  · cases same
  · exact ⟨(Option.some.inj same).symm, length_pos_iff.mpr ‹_›⟩

theorem tail_valid {k : Nat} (same : ql.tail = some k) : k = ql.nodes.length - 1 ∧ 0 < ql.nodes.length := by
  rw [Quicklist.tail] at same
  split at same
  · cases same
  · exact ⟨(Option.some.inj same).symm, length_pos_iff.mpr ‹_›⟩

theorem head_none (none : ql.head = none) : ql.nodes = [] := by
  rw [Quicklist.head] at none
  split at none
  · assumption
  · cases none

theorem tail_none (none : ql.tail = none) : ql.nodes = [] := by
  rw [Quicklist.tail] at none
  split at none
  · assumption
  · cases none

theorem Settled.insertHead (settled : Settled setup ql) (after : Bool) (fresh : Fresh node) :
    Flagged (quicklistInsertNode setup ql ql.head node after) fun result => Settled setup result.1 :=
  settled.insertNode after (fun k same => by have := head_valid same; omega) head_none fresh

theorem Settled.insertTail (settled : Settled setup ql) (after : Bool) (fresh : Fresh node) :
    Flagged (quicklistInsertNode setup ql ql.tail node after) fun result => Settled setup result.1 :=
  settled.insertNode after (fun k same => by have := tail_valid same; omega) tail_none fresh

variable (steady : Steady setup ql marked held)
include steady
/-- The deletion of a node. A node that comes next to the compress depth loses its mark. -/
theorem Steady.delNode (index : Nat)
    (stays : ∀ k, k ≠ index → marked k → Inner ql.compress (ql.nodes.length - 1) (shifted index k)) :
    Flagged (quicklistDelNode setup ql index) fun ql' =>
      ql'.nodes.length = ql.nodes.length - 1 ∧ ql'.compress = ql.compress ∧
      Steady setup ql' (fun i => ∃ k, k ≠ index ∧ marked k ∧ shifted index k = i ∧
          (i + ql.compress + 1 = ql.nodes.length - 1 → ∃ k, k ≠ index ∧ held k ∧ shifted index k = i))
        (fun i => ∃ k, k ≠ index ∧ held k ∧ shifted index k = i) := by
  cases found : ql.nodes[index]? with
  | none =>
    rw [quicklistDelNode, readNode, readCell, found]
    exact .inl ⟨_, rfl⟩
  | some node =>
    have inside := (List.getElem?_eq_some_iff.mp found).1
    have erases : (erased ql index node).nodes.length = ql.nodes.length - 1 := length_eraseIdx_of_lt inside
    have len : (erased ql index node).len = (erased ql index node).nodes.length := by
      rw [erases]
      change subtract ql.len 1 = _
      rw [subtract, if_pos (by rw [steady.len]; omega), steady.len]
    have ready : Ready (erased ql index node) := by
      intro i other result outside
      obtain ⟨k, different, before, rfl⟩ := getElem?_erased result
      rw [Quicklist.inner, erases] at outside
      refine ⟨?_, fun early => (steady.outer k other before ?_).1⟩
      · by_contra mark
        exact outside (stays k different ((steady.flags k other before).1 (by simpa using mark)))
      · rw [erases] at early
        change ql.compress = 0 ∨ ql.nodes.length - 1 < ql.compress * 2 at early
        unfold Quicklist.inner Inner
        omega
    have intact : AllIntact setup (erased ql index node) := fun other member =>
      steady.intact other (mem_of_mem_eraseIdx member)
    rw [quicklistDelNode, readNode_of found]
    have compressed : Flagged (compressList setup (erased ql index node) none) _ := compressList_outcome intact len ready
    refine compressed.mono ?_
    rintro ql' ⟨recodes, outer, boundary⟩
    have length := recodes.length.trans erases
    refine ⟨length, recodes.compress, ?_, recodes.intact intact, outer, ?_⟩
    · rw [recodes.len, recodes.length, len]
    · intro i other result
      obtain ⟨before, result', recoded⟩ := recodes.back result
      obtain ⟨k, different, found', same⟩ := getElem?_erased result'
      obtain ⟨flag, flag'⟩ := steady.flags k before found'
      have held' : other.dontCompress = true → ∃ k, k ≠ index ∧ held k ∧ shifted index k = i := fun hold =>
        ⟨k, different, flag' (recoded.dontCompress.symm.trans hold), same⟩
      refine ⟨fun mark => ?_, held'⟩
      have marked' := flag (recoded.marked mark)
      refine ⟨k, different, marked', same, fun last => ?_⟩
      by_contra free
      have clear := boundary i (by rw [Quicklist.inner, erases]; exact same ▸ stays k different marked')
        (.inr (.inl (by rw [erases]; exact last))) other result (by simpa using fun hold => free (held' hold))
      simp [clear] at mark

theorem Steady.delNode_settled (index : Nat) (marks : ∀ k, marked k → k = index) (holds : ∀ k, held k → k = index) :
    Flagged (quicklistDelNode setup ql index) fun ql' =>
      Settled setup ql' ∧ ql'.nodes.length = ql.nodes.length - 1 := by
  refine (steady.delNode index fun k different mark => absurd (marks k mark) different).mono ?_
  rintro ql' ⟨length, _, next⟩
  exact ⟨next.settled (fun i ⟨k, different, mark, _⟩ => different (marks k mark))
    fun i ⟨k, different, hold, _⟩ => different (holds k hold), length⟩

theorem Steady.delIndex (found : ql.nodes[index]? = some node) (raw : node.encoding = .raw) (p : Nat)
    (marks : ∀ k, marked k → k = index) (holds : ∀ k, held k → k = index) :
    Flagged (quicklistDelIndex setup ql index p) fun result =>
      (result.2 = true → Settled setup result.1) ∧ (result.2 = false → Steady setup result.1 marked held ∧
        result.1.nodes.length = ql.nodes.length ∧ result.1.compress = ql.compress) := by
  rw [quicklistDelIndex, readNode_of found, ok_bind]
  split
  · refine (steady.delNode_settled index marks holds).bind fun ql' ⟨settled, _⟩ => ?_
    exact ⟨fun _ => settled, nofun⟩
  · refine (flagged_memory _).bind fun _ _ => (flagged_nonNull _).bind fun deleted _ => ?_
    generalize (node.count + 2 ^ 16 - 1) % 2 ^ 16 = count
    dsimp only
    by_cases empty : count = 0
    · rw [if_pos empty]
      have next : Steady setup (NodeList.setNode ql index { node with entry := deleted.1, count := count }) marked held :=
        steady.update found raw ⟨rfl, rfl, rfl⟩
      refine (next.delNode_settled index marks holds).bind fun ql' ⟨settled, _⟩ => ?_
      exact ⟨fun _ => settled.setCount _, nofun⟩
    · rw [if_neg empty]
      refine (flagged_updateSz _).bind fun node' same => ?_
      have next : Steady setup (NodeList.setNode ql index node') marked held := steady.update found raw same
      exact ⟨nofun, fun _ => ⟨next.setCount _, length_set, rfl⟩⟩

theorem Steady.decompress (index : Nat) :
    Flagged (quicklistDecompressNode setup ql index) fun ql' =>
      Steady setup ql' marked held ∧ Decompresses setup ql ql' (· = index) := by
  by_cases inside : index < ql.nodes.length
  · obtain ⟨ql', decompressed, recodes, raw⟩ := decompress_step steady.intact inside
    rw [decompressed]
    refine ⟨steady.recodes recodes fun i node' found outside => ?_, ⟨recodes, raw⟩⟩
    rw [recodes.inner] at outside
    obtain ⟨node, found', recoded⟩ := recodes.back found
    obtain ⟨uncompressed, unmarked⟩ := steady.outer i node found' outside
    exact ⟨raw i node' found (.inr ⟨node, found', uncompressed⟩), recoded.unmarked unmarked⟩
  · rw [quicklistDecompressNode, readNode, readCell, getElem?_eq_none (by omega)]
    exact .inl ⟨_, rfl⟩

omit steady

theorem Steady.listpackMerge (steady : Steady setup ql marked nowhere) (index : Nat)
    (low : ∀ i, marked i → i ≠ index → i ≠ index + 1 → i < index ∧ Inner ql.compress (ql.nodes.length - 1) i) :
    Flagged (quicklistListpackMerge setup ql index) fun ql' => ql'.compress = ql.compress ∧
      Steady setup ql' (fun i => marked i ∧ i < index ∧ Inner ql.compress (ql'.nodes.length - 1) i) nowhere := by
  rw [quicklistListpackMerge]
  refine (steady.decompress index).bind ?_
  rintro ql₁ ⟨steady₁, first⟩
  refine (steady₁.decompress (index + 1)).bind ?_
  rintro ql₂ ⟨steady₂, second⟩
  refine (flagged_readNode ql₂ index).bind fun a foundA => (flagged_readNode ql₂ (index + 1)).bind fun b foundB => ?_
  refine (flagged_memory _).bind fun entry _ => (flagged_memory _).bind fun bytesA _ =>
    (flagged_memory _).bind fun bytesB _ => ?_
  obtain ⟨recodes, raw⟩ := first.trans second
  have rawA : a.encoding = .raw := raw _ a foundA (.inl (.inl rfl))
  have rawB : b.encoding = .raw := raw _ b foundB (.inl (.inr rfl))
  have length := recodes.length
  have compress := recodes.compress
  -- the deleted node may keep its mark
  have rest {nodeA nodeB : QuicklistNode} {deleted : Nat} (flagsA : nodeA.encoding = .raw ∧ nodeA.dontCompress = false)
      (flagsB : nodeB.encoding = .raw ∧ nodeB.dontCompress = false)
      (clearA : nodeA.recompress = true → index = deleted ∧ a.recompress = true)
      (clearB : nodeB.recompress = true → index + 1 = deleted ∧ b.recompress = true)
      (one : deleted = index ∨ deleted = index + 1) :
      Flagged (do
        let ql ← quicklistDelNode setup (NodeList.setNode (NodeList.setNode ql₂ index nodeA) (index + 1) nodeB) deleted
        quicklistCompress setup ql index) fun ql' => ql'.compress = ql.compress ∧
          Steady setup ql' (fun i => marked i ∧ i < index ∧ Inner ql.compress (ql'.nodes.length - 1) i) nowhere := by
    -- a marked node that stays lies before the merged ones
    let before (k : Nat) : Prop := marked k ∧ k < index ∧ Inner ql.compress (ql.nodes.length - 1) k
    have first : Steady setup _ (fun k => k = index + 1 ∨ k = deleted ∨ before k) nowhere := steady₂.setRaw flagsA.1
      (fun mark => ⟨steady₂.inner foundA (clearA mark).2, .inr (.inl (clearA mark).1)⟩) (by simp [flagsA.2])
      fun k notA mark => or_iff_not_imp_left.mpr fun notB => .inr ⟨mark, low k mark notA notB⟩
    have second : Steady setup _ (fun k => k = deleted ∨ before k) nowhere := first.setRaw flagsB.1
      (fun mark => ⟨(inner_setNode _).mpr (steady₂.inner foundB (clearB mark).2), .inl (clearB mark).1⟩)
      (by simp [flagsB.2]) fun k notB mark => mark.resolve_left notB
    have length' : (NodeList.setNode (NodeList.setNode ql₂ index nodeA) (index + 1) nodeB).nodes.length =
        ql.nodes.length := by rw [NodeList.setNode, NodeList.setNode, length_set, length_set, length]
    have compress' : (NodeList.setNode (NodeList.setNode ql₂ index nodeA) (index + 1) nodeB).compress = ql.compress :=
      compress
    have stays {k : Nat} (lower : k < index) : shifted deleted k = k := if_pos (by omega)
    refine (second.delNode deleted fun k different mark => ?_).bind ?_
    · obtain ⟨_, lower, inside⟩ := mark.resolve_left different
      rw [length', compress', stays lower]
      exact inside
    rintro ql₃ ⟨length₃, compress₃, steady₃⟩
    refine (steady₃.compress index).mono ?_
    rintro ql₄ ⟨steady₄, recodes₄⟩
    refine ⟨by rw [recodes₄.compress, compress₃, compress'], steady₄.weaken ?_ ?_⟩
    · rintro i ⟨⟨k, different, mark, same, edge⟩, _⟩
      obtain ⟨mark, lower, inside⟩ := mark.resolve_left different
      rw [stays lower] at same
      subst same
      refine ⟨mark, lower, inside.1, inside.2.1, ?_⟩
      have away : k + ql.compress + 1 ≠ ql.nodes.length - 1 := by
        intro last
        rw [length', compress'] at edge
        obtain ⟨_, _, hold, _⟩ := edge last
        exact hold
      have := inside.2.2
      rw [recodes₄.length, length₃]
      omega
    · rintro i ⟨k, _, hold, _⟩
      exact hold
  have freeA : a.dontCompress = false := by
    simpa [nowhere] using (steady₂.flags index a foundA).2
  have freeB : b.dontCompress = false := by
    simpa [nowhere] using (steady₂.flags (index + 1) b foundB).2
  by_cases first : bytesA ≥ bytesB
  · simp only [first]
    refine (flagged_countNode _).bind fun keep same => ?_
    exact rest ⟨same.raw rawA, same.2.2.trans freeA⟩ ⟨rawB, freeB⟩ (fun mark => by cases mark)
      (fun mark => ⟨rfl, mark⟩) (.inr rfl)
  · simp only [first]
    refine (flagged_countNode _).bind fun keep same => ?_
    exact rest ⟨rawA, freeA⟩ ⟨same.raw rawB, same.2.2.trans freeB⟩ (fun mark => ⟨rfl, mark⟩)
      (fun mark => by cases mark) (.inl rfl)

/-- If there is a marked node, it is right before the center and stays beyond the compress depth. -/
def Close (any : Prop) (ql : Quicklist) (center i : Nat) : Prop :=
  any ∧ i + 1 = center ∧ Inner ql.compress (ql.nodes.length - 1) i

/-- One merge keeps the mark before the center or covers the marked node. -/
theorem Steady.mergeStep {any : Prop} {center center' k : Nat} (steady : Steady setup ql (Close any ql center) nowhere)
    (near : k + 2 = center ∨ k + 1 = center ∨ center ≤ k ∧ center' = center) :
    Flagged (quicklistListpackMerge setup ql k) fun ql' => Steady setup ql' (Close any ql' center') nowhere := by
  refine (steady.listpackMerge k ?_).mono ?_
  · rintro i ⟨_, same, inside⟩ notFirst notSecond
    exact ⟨by omega, inside⟩
  · rintro ql' ⟨compress, next⟩
    refine next.weaken ?_ fun _ => id
    rintro i ⟨⟨cause, same, _⟩, lower, inside⟩
    exact ⟨cause, by omega, by rwa [compress]⟩

theorem Steady.mergeNodes {any : Prop} {center : Nat} (steady : Steady setup ql (Close any ql center) nowhere) :
    Flagged (quicklistMergeNodes setup ql center) fun result =>
      Steady setup result.1 (Close any result.1 result.2) nowhere := by
  rw [quicklistMergeNodes]
  have first : Flagged (if 2 ≤ center ∧ mergeAllowed ql (center - 2) then do
      return (← quicklistListpackMerge setup ql (center - 2), center - 1)
    else return (ql, center)) fun result => Steady setup result.1 (Close any result.1 result.2) nowhere := by
    split
    · exact (steady.mergeStep (.inl (by omega))).bind fun _ next => next
    · exact steady
  refine first.bind fun ⟨ql₁, center⟩ steady₁ => ?_
  have second : Flagged (if mergeAllowed ql₁ (center + 1) then quicklistListpackMerge setup ql₁ (center + 1)
    else return ql₁) fun ql₂ => Steady setup ql₂ (Close any ql₂ center) nowhere := by
    split
    · exact steady₁.mergeStep (.inr (.inr ⟨by omega, rfl⟩))
    · exact steady₁
  refine second.bind fun ql₂ steady₂ => ?_
  have third : Flagged (if 1 ≤ center ∧ mergeAllowed ql₂ (center - 1) then do
      return (← quicklistListpackMerge setup ql₂ (center - 1), center - 1)
    else return (ql₂, center)) fun result => Steady setup result.1 (Close any result.1 result.2) nowhere := by
    split
    · exact (steady₂.mergeStep (.inr (.inl (by omega)))).bind fun _ next => next
    · exact steady₂
  refine third.bind fun ⟨ql₃, target⟩ steady₃ => ?_
  have fourth : Flagged (if mergeAllowed ql₃ target then quicklistListpackMerge setup ql₃ target
    else return ql₃) fun ql₄ => Steady setup ql₄ (Close any ql₄ target) nowhere := by
    split
    · exact steady₃.mergeStep (.inr (.inr ⟨le_rfl, rfl⟩))
    · exact steady₃
  exact fourth.bind fun ql₄ steady₄ => steady₄

section Limits
variable {fill : Int} {size count : Nat}

theorem quicklistNodeExceedsLimit_eq_false_iff : quicklistNodeExceedsLimit fill size count = false ↔
    size ≤ (quicklistNodeLimit fill).1.getD sizeSafetyLimit ∧ ∀ limit ∈ (quicklistNodeLimit fill).2, count ≤ limit := by
  unfold quicklistNodeExceedsLimit quicklistNodeLimit
  by_cases counted : fill ≥ 0
  · simp [counted]
  · have inside : min ((-fill).toNat - 1) (optimizationLevel.length - 1) < optimizationLevel.length :=
      (Nat.min_le_right _ _).trans_lt (by decide)
    simp [counted, getElem?_eq_getElem inside]

theorem sizeLimit_le (fill : Int) : (quicklistNodeLimit fill).1.getD sizeSafetyLimit ≤ 65536 := by
  unfold quicklistNodeLimit
  split
  · exact (by decide : 8192 ≤ 65536)
  · have levels : ∀ index < 5, optimizationLevel[index]?.getD sizeSafetyLimit ≤ 65536 := by decide
    exact levels _ ((Nat.min_le_right _ _).trans_lt (by decide))

/-- The merged listpack can be stored, and the limits of the fill factor hold for it. -/
def MergeWithinLimits (a b : QuicklistNode) (fill : Int) : Prop :=
  a.sz + b.sz - 7 < uint32Max ∧ (∀ limit ∈ (quicklistNodeLimit fill).1, a.sz + b.sz - 7 ≤ limit) ∧
    ∀ limit ∈ (quicklistNodeLimit fill).2, a.count + b.count ≤ limit

/-- An allowed merge is within the limits unless the merged size exceeds 32 bits and the rest meets the limits. -/
theorem quicklistNodeAllowMerge_within_iff (a b : QuicklistNode) (fill : Int) (packed : a.container = .packed)
    (packed' : b.container = .packed) (stored : a.sz < 2 ^ 32) (stored' : b.sz < 2 ^ 32) :
    (quicklistNodeAllowMerge (some a) (some b) fill = true → MergeWithinLimits a b fill) ↔
      ¬(2 ^ 32 + 7 ≤ a.sz + b.sz ∧ a.sz + b.sz ≤ 2 ^ 32 + 7 + (quicklistNodeLimit fill).1.getD sizeSafetyLimit ∧
        ∀ limit ∈ (quicklistNodeLimit fill).2, a.count + b.count ≤ limit) := by
  have bound := sizeLimit_le fill
  have allowed : quicklistNodeAllowMerge (some a) (some b) fill = true ↔
      (a.sz + b.sz + 2 ^ 64 - 7) % 2 ^ 32 ≤ (quicklistNodeLimit fill).1.getD sizeSafetyLimit ∧
        ∀ limit ∈ (quicklistNodeLimit fill).2, a.count + b.count ≤ limit := by
    rw [← quicklistNodeExceedsLimit_eq_false_iff]
    simp [quicklistNodeAllowMerge, packed, packed']
  rw [allowed]
  constructor
  · rintro within ⟨large, wrapped, counts⟩
    have fits := (within ⟨by omega, counts⟩).1
    unfold uint32Max at fits
    omega
  · rintro apart ⟨size, counts⟩
    have small : a.sz + b.sz < 2 ^ 32 + 7 := by
      by_contra large
      exact apart ⟨by omega, by omega, counts⟩
    have same : a.sz + b.sz - 7 ≤ (quicklistNodeLimit fill).1.getD sizeSafetyLimit := by omega
    constructor
    · unfold uint32Max
      omega
    · refine ⟨fun limit set => ?_, counts⟩
      rw [Option.mem_def.mp set] at same
      exact same

/-- A node of the given size with one entry. -/
def sizedNode (sz : Nat) : QuicklistNode := ⟨[], sz, 1, .raw, .packed, false, false⟩

theorem quicklistNodeAllowMerge_within_small : MergeWithinLimits (sizedNode 4000) (sizedNode 4000) (-2) :=
  (quicklistNodeAllowMerge_within_iff _ _ (-2) rfl rfl (by decide) (by decide)).mpr
    (fun wrapped => absurd wrapped.1 (by decide)) (by decide)

/-- The merged size of two nodes of more than two gigabytes wraps to one. -/
theorem quicklistNodeAllowMerge_wraps :
    quicklistNodeAllowMerge (some (sizedNode (2 ^ 31 + 4))) (some (sizedNode (2 ^ 31 + 4))) (-2) = true ∧
      ¬MergeWithinLimits (sizedNode (2 ^ 31 + 4)) (sizedNode (2 ^ 31 + 4)) (-2) :=
  ⟨by decide, fun within => absurd within.1 (by decide)⟩
end Limits
end Redis.NodeList

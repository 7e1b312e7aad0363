import Redis.Construction.Quicklist.Client
import Redis.Foundation.Pointwise

namespace Redis.NodeList
open Foundation Listpack List
variable {setup : Setup} {ql ql' : Quicklist} {node node' : QuicklistNode} {index : Nat}

section Steps
variable {A : Type}

/-- A computation that stops only with a fault of the memory or of the contents. The assertion on
a found entry depends on the contents. -/
abbrev Flagged (computation : Attempt A) (post : A → Prop) : Prop :=
  Outcome computation
    (fun fault => (∃ cause, fault = .memory cause) ∨ fault = .assertion .quicklistGetIteratorEntryAtIdx) post

theorem flagged_memory (computation : Checked A) : Flagged (memory computation) fun value => computation = .ok value := by
  cases computation with
  | ok value => exact rfl
  | error fault => exact .inl ⟨fault, rfl⟩

theorem flagged_nonNull (pointer : Option A) : Flagged (nonNull pointer) fun value => pointer = some value := by
  cases pointer with
  | some value => exact rfl
  | none => exact .inl ⟨_, rfl⟩

theorem flagged_assert {site : QuicklistAssert} {condition : Prop} [Decidable condition] (holds : condition) :
    Flagged (assert site condition) fun _ => True := by
  rw [assert, if_pos holds]
  trivial

theorem flagged_readNode (ql : Quicklist) (index : Nat) :
    Flagged (readNode ql index) fun node => ql.nodes[index]? = some node := by
  rw [readNode, readCell]
  cases ql.nodes[index]? with
  | some node => exact rfl
  | none => exact .inl ⟨_, rfl⟩

theorem readNode_of (found : ql.nodes[index]? = some node) : readNode ql index = .ok node := by
  rw [readNode, readCell_of found]
  rfl
end Steps

section Nodes
variable (setup)

/-- A compressed node holds compressed bytes of its size, and is not marked. -/
def Intact (node : QuicklistNode) : Prop :=
  node.encoding = .lzf → node.recompress = false ∧
    ∃ bytes, setup.lzfCompress bytes = some node.entry ∧ bytes.length = node.sz

/-- A node is compressed or decompressed, or loses its mark. -/
structure Recoded (node node' : QuicklistNode) : Prop where
  dontCompress : node'.dontCompress = node.dontCompress
  intact : Intact setup node → Intact setup node'
  held : node.dontCompress = true → node.encoding = .raw → node' = node
  cleared : node' = node ∨ node'.recompress = false

variable {setup}

theorem Recoded.refl (node : QuicklistNode) : Recoded setup node node := ⟨rfl, id, fun _ _ => rfl, .inl rfl⟩

theorem Recoded.trans {node'' : QuicklistNode} (first : Recoded setup node node') (second : Recoded setup node' node'') :
    Recoded setup node node'' := by
  refine ⟨second.dontCompress.trans first.dontCompress, fun intact => second.intact (first.intact intact),
    fun held raw => ?_, ?_⟩
  · have same := first.held held raw
    subst same
    exact second.held held raw
  · rcases second.cleared with rfl | cleared
    · exact first.cleared
    · exact .inr cleared

theorem Recoded.marked (recoded : Recoded setup node node') (marked : node'.recompress = true) :
    node.recompress = true := by
  rcases recoded.cleared with same | cleared
  · rwa [← same]
  · simp [cleared] at marked

theorem Recoded.unmarked (recoded : Recoded setup node node') (unmarked : node.recompress = false) :
    node'.recompress = false := by
  by_contra marked
  simp [recoded.marked (by simpa using marked)] at unmarked

theorem recoded_unmark (raw : node.encoding = .raw) (free : node.dontCompress = false) :
    Recoded setup node { node with recompress := false } :=
  ⟨rfl, fun _ compressed => by simp [raw] at compressed, fun held => by simp [free] at held, .inr rfl⟩

variable (found : ql.nodes[index]? = some node)
include found
theorem setNode_self : setNode ql index node = ql := by
  obtain ⟨inside, same⟩ := List.getElem?_eq_some_iff.mp found
  rw [setNode, ← same, set_getElem_self]

theorem compressNode_outcome (raw : node.encoding = .raw) (interior : 0 < index ∧ index + 1 < ql.nodes.length) :
    Flagged (compressNode setup ql index) fun ql' => ∃ node', ql' = setNode ql index node' ∧
      Recoded setup node node' ∧ (node.dontCompress = false → node'.recompress = false) := by
  rw [compressNode, readNode_of found, ok_bind]
  by_cases held : node.dontCompress = true
  · rw [if_pos held]
    exact ⟨node, (setNode_self found).symm, .refl node, fun free => by simp [held] at free⟩
  · have unmarked : Recoded setup node { node with recompress := false } := recoded_unmark raw (by simpa using held)
    rw [if_neg held]
    refine (flagged_assert interior).bind fun _ _ => ?_
    dsimp only
    split
    · exact ⟨_, rfl, unmarked, fun _ => rfl⟩
    · refine (flagged_memory _).bind fun bytes read => ?_
      cases compressed : setup.lzfCompress bytes with
      | none => exact ⟨_, rfl, unmarked, fun _ => rfl⟩
      | some lzf =>
        dsimp only
        split
        · exact ⟨_, rfl, unmarked, fun _ => rfl⟩
        · exact ⟨_, rfl, ⟨rfl, fun _ _ => ⟨rfl, bytes, compressed, (length_of_readBytes read).symm⟩,
            fun held' => absurd held' held, .inr rfl⟩, fun _ => rfl⟩

theorem quicklistCompressNode_outcome (intact : Intact setup node)
    (interior : 0 < index ∧ index + 1 < ql.nodes.length) :
    Flagged (quicklistCompressNode setup ql index) fun ql' => ∃ node', ql' = setNode ql index node' ∧
      Recoded setup node node' ∧ (node.dontCompress = false → node'.recompress = false) := by
  rw [quicklistCompressNode, readNode_of found, ok_bind]
  cases encoding : node.encoding with
  | raw => exact compressNode_outcome found encoding interior
  | lzf => exact ⟨node, (setNode_self found).symm, .refl node, fun _ => (intact encoding).1⟩

theorem quicklistDecompressNode_eq (intact : Intact setup node) :
    ∃ node', quicklistDecompressNode setup ql index = .ok (setNode ql index node') ∧ Recoded setup node node' ∧
      node'.encoding = .raw := by
  rw [quicklistDecompressNode, readNode_of found, ok_bind]
  cases encoding : node.encoding with
  | raw =>
    refine ⟨node, ?_, .refl node, encoding⟩
    rw [setNode_self found]
    rfl
  | lzf =>
    obtain ⟨_, bytes, compresses, length⟩ := intact encoding
    rw [if_pos rfl, decompressNode, readNode_of found, ok_bind, ← length, setup.decompress_compress _ _ compresses]
    exact ⟨_, rfl, ⟨rfl, nofun, fun _ raw => by simp [encoding] at raw, .inr rfl⟩, rfl⟩
end Nodes

section Lists
variable (setup)

/-- A list whose nodes are recoded. -/
structure Recodes (ql ql' : Quicklist) : Prop where
  nodes : List.Forall₂ (Recoded setup) ql.nodes ql'.nodes
  len : ql'.len = ql.len
  compress : ql'.compress = ql.compress

def AllIntact (ql : Quicklist) : Prop := ∀ node ∈ ql.nodes, Intact setup node

variable {setup}

theorem forall₂_recoded_refl (nodes : List QuicklistNode) : List.Forall₂ (Recoded setup) nodes nodes :=
  forall₂_same.mpr fun node _ => .refl node

theorem Recodes.refl (ql : Quicklist) : Recodes setup ql ql := ⟨forall₂_recoded_refl _, rfl, rfl⟩

theorem Recodes.trans {ql'' : Quicklist} (first : Recodes setup ql ql') (second : Recodes setup ql' ql'') :
    Recodes setup ql ql'' :=
  ⟨forall₂_trans (fun _ _ _ one two => one.trans two) first.nodes second.nodes, second.len.trans first.len,
    second.compress.trans first.compress⟩

variable (recodes : Recodes setup ql ql')
include recodes
theorem Recodes.length : ql'.nodes.length = ql.nodes.length := recodes.nodes.length_eq.symm

theorem Recodes.forward (found : ql.nodes[index]? = some node) :
    ∃ node', ql'.nodes[index]? = some node' ∧ Recoded setup node node' := by
  rcases forall₂_getElem? recodes.nodes index with ⟨missing, _⟩ | ⟨other, node', found', result, recoded⟩
  · simp [found] at missing
  · rw [found] at found'
    cases found'
    exact ⟨node', result, recoded⟩

theorem Recodes.back (found : ql'.nodes[index]? = some node') :
    ∃ node, ql.nodes[index]? = some node ∧ Recoded setup node node' := by
  rcases forall₂_getElem? recodes.nodes index with ⟨_, missing⟩ | ⟨node, other, found', result, recoded⟩
  · simp [found] at missing
  · rw [found] at result
    cases result
    exact ⟨node, found', recoded⟩

theorem Recodes.intact (intact : AllIntact setup ql) : AllIntact setup ql' := by
  intro node' member
  obtain ⟨index, found⟩ := mem_iff_getElem?.mp member
  obtain ⟨node, found', recoded⟩ := recodes.back found
  exact recoded.intact (intact node (mem_of_getElem? found'))

omit recodes

theorem recodes_setNode (found : ql.nodes[index]? = some node) (recoded : Recoded setup node node') :
    Recodes setup ql (setNode ql index node') := by
  refine ⟨?_, rfl, rfl⟩
  have set : List.Forall₂ (Recoded setup) (ql.nodes.set index node) (ql.nodes.set index node') :=
    forall₂_set (forall₂_recoded_refl ql.nodes) index recoded
  obtain ⟨inside, same⟩ := List.getElem?_eq_some_iff.mp found
  rwa [← same, set_getElem_self] at set
end Lists

/-- The nodes between two depths, counted from both ends. -/
def Visited (length start stop k : Nat) : Prop := (start ≤ k ∧ k < stop) ∨ (length ≤ k + stop ∧ k + start < length)

theorem visited_succ {length start depth k : Nat} (room : 2 * (start + (depth + 1)) ≤ length) :
    Visited length start (start + (depth + 1)) k ↔
      (k = start ∨ k = length - 1 - start) ∨ Visited length (start + 1) (start + 1 + depth) k := by
  unfold Visited
  omega

/-- The nodes of a set are decompressed, and no node is compressed. -/
structure Decompresses (setup : Setup) (ql ql' : Quicklist) (chosen : Nat → Prop) : Prop where
  recodes : Recodes setup ql ql'
  raw : ∀ i node', ql'.nodes[i]? = some node' →
    (chosen i ∨ ∃ node, ql.nodes[i]? = some node ∧ node.encoding = .raw) → node'.encoding = .raw

theorem Decompresses.mono {chosen chosen' : Nat → Prop} (decompresses : Decompresses setup ql ql' chosen)
    (fewer : ∀ i, chosen' i → chosen i) : Decompresses setup ql ql' chosen' :=
  ⟨decompresses.recodes, fun i node' found cause => decompresses.raw i node' found (cause.imp_left (fewer i))⟩

theorem Decompresses.trans {ql'' : Quicklist} {chosen chosen' : Nat → Prop} (first : Decompresses setup ql ql' chosen)
    (second : Decompresses setup ql' ql'' chosen') : Decompresses setup ql ql'' fun i => chosen i ∨ chosen' i := by
  refine ⟨first.recodes.trans second.recodes, fun i node'' found cause => ?_⟩
  obtain ⟨node', found', _⟩ := second.recodes.back found
  rcases cause with (early | late) | before
  · exact second.raw i node'' found (.inr ⟨node', found', first.raw i node' found' (.inl early)⟩)
  · exact second.raw i node'' found (.inl late)
  · exact second.raw i node'' found (.inr ⟨node', found', first.raw i node' found' (.inr before)⟩)

theorem decompress_step (intact : AllIntact setup ql) (inside : index < ql.nodes.length) :
    ∃ ql', quicklistDecompressNode setup ql index = .ok ql' ∧ Decompresses setup ql ql' (· = index) := by
  have found := getElem?_eq_getElem inside
  obtain ⟨node', decompressed, recoded, raw⟩ := quicklistDecompressNode_eq found (intact _ (getElem_mem inside))
  refine ⟨_, decompressed, recodes_setNode found recoded, fun i other result cause => ?_⟩
  by_cases same : i = index
  · subst same
    rw [setNode, getElem?_set_self inside] at result
    cases result
    exact raw
  · rw [setNode, getElem?_set_ne (Ne.symm same)] at result
    obtain ⟨node, before, raw⟩ := cause.resolve_left same
    rw [before] at result
    cases result
    exact raw

/-- The loop decompresses all nodes within the depth. It returns early exactly if the list has
no other nodes. -/
theorem compressLoop_spec (target : Option Nat) (depth start : Nat) (inDepth : Bool) (intact : AllIntact setup ql)
    (room : 2 * (start + depth) ≤ ql.nodes.length) :
    ∃ ql' result, compressLoop setup target depth start (ql.nodes.length - 1 - start) inDepth ql = .ok (ql', result) ∧
      Decompresses setup ql ql' (Visited ql.nodes.length start (start + depth)) ∧
      ((result = none ∧ 0 < depth ∧ 2 * (start + depth) = ql.nodes.length) ∨
        ∃ flag, result = some (start + depth, ql.nodes.length - 1 - (start + depth), flag) ∧
          (depth = 0 ∨ 2 * (start + depth) < ql.nodes.length) ∧
          (flag = true ↔ inDepth = true ∨
            ∃ k, target = some k ∧ Visited ql.nodes.length start (start + depth) k)) := by
  induction depth generalizing start inDepth ql with
  | zero =>
    refine ⟨ql, _, rfl, ⟨.refl ql, ?_⟩, .inr ⟨inDepth, rfl, .inl rfl, ?_⟩⟩
    · rintro i node' found (visited | ⟨node, before, raw⟩)
      · unfold Visited at visited
        omega
      · rw [found] at before
        cases before
        exact raw
    · refine ⟨.inl, fun cause => cause.resolve_right ?_⟩
      rintro ⟨k, _, visited⟩
      unfold Visited at visited
      omega
  | succ depth ih =>
    obtain ⟨ql₁, forward, first⟩ := decompress_step intact (show start < ql.nodes.length by omega)
    have length₁ := first.recodes.length
    obtain ⟨ql₂, reverse, second⟩ := decompress_step (first.recodes.intact intact)
      (show ql.nodes.length - 1 - start < ql₁.nodes.length by omega)
    have both := first.trans second
    have length := both.recodes.length
    rw [compressLoop, forward, ok_bind, reverse, ok_bind]
    by_cases meets : start = ql.nodes.length - 1 - start ∨ start + 1 = ql.nodes.length - 1 - start
    · rw [if_pos meets]
      refine ⟨ql₂, none, rfl, both.mono fun i visited => ?_, .inl ⟨rfl, by omega, by omega⟩⟩
      unfold Visited at visited
      omega
    · rw [if_neg meets, show ql.nodes.length - 1 - start - 1 = ql₂.nodes.length - 1 - (start + 1) by omega]
      obtain ⟨ql', result, looped, others, ends⟩ := ih (start + 1)
        (inDepth || decide (target = some start) || decide (target = some (ql.nodes.length - 1 - start)))
        (both.recodes.intact intact) (show 2 * (start + 1 + depth) ≤ ql₂.nodes.length by omega)
      rw [length] at looped others ends
      refine ⟨ql', result, by rw [length]; exact looped, (both.trans others).mono fun i => (visited_succ room).mp, ?_⟩
      rcases ends with ⟨early, _, whole⟩ | ⟨flag, done, more, inside⟩
      · exact .inl ⟨early, by omega, by omega⟩
      · refine .inr ⟨flag, ?_, by omega, ?_⟩
        · rw [done, show start + 1 + depth = start + (depth + 1) by omega]
        · cases target with
          | none => simpa using inside
          | some k => simpa [visited_succ room, or_assoc] using inside

end Redis.NodeList

import Redis.Proof.Quicklist.Recode

namespace Redis.NodeList
open Foundation Listpack List
variable {setup : Setup} {ql ql' : Quicklist} {node node' : QuicklistNode} {index : Nat}

/-- The nodes beyond the compress depth, which may be compressed. -/
def Inner (depth length index : Nat) : Prop := 0 < depth ∧ depth ≤ index ∧ index + depth < length

def Quicklist.inner (ql : Quicklist) (index : Nat) : Prop := Inner ql.compress ql.nodes.length index

/-- The nodes within the compress depth are not compressed and not marked. -/
def Outer (ql : Quicklist) : Prop :=
  ∀ i node, ql.nodes[i]? = some node → ¬ ql.inner i → node.encoding = .raw ∧ node.recompress = false

/-- The condition for a call of `__quicklistCompress`. -/
def Ready (ql : Quicklist) : Prop :=
  ∀ i node, ql.nodes[i]? = some node → ¬ ql.inner i → node.recompress = false ∧
    (ql.compress = 0 ∨ ql.nodes.length < ql.compress * 2 → node.encoding = .raw)

theorem Outer.ready (outer : Outer ql) : Ready ql :=
  fun i node found outside => ⟨(outer i node found outside).2, fun _ => (outer i node found outside).1⟩

/-- The node at an index has no mark unless it is held. -/
def UnmarkedAt (ql : Quicklist) (index : Nat) : Prop :=
  ∀ node, ql.nodes[index]? = some node → node.dontCompress = false → node.recompress = false

theorem Recodes.inner (recodes : Recodes setup ql ql') (index : Nat) : ql'.inner index ↔ ql.inner index := by
  rw [Quicklist.inner, Quicklist.inner, recodes.compress, recodes.length]

theorem Recodes.unmarkedAt (recodes : Recodes setup ql ql') (unmarked : UnmarkedAt ql index) :
    UnmarkedAt ql' index := by
  intro node' found free
  obtain ⟨node, found', recoded⟩ := recodes.back found
  exact recoded.unmarked (unmarked node found' (recoded.dontCompress.symm.trans free))

theorem compress_step (intact : AllIntact setup ql)
    (interior : index < ql.nodes.length → 0 < index ∧ index + 1 < ql.nodes.length) :
    Flagged (quicklistCompressNode setup ql index) fun ql' => Recodes setup ql ql' ∧
      UnmarkedAt ql' index ∧ ∀ i, i ≠ index → ql'.nodes[i]? = ql.nodes[i]? := by
  cases found : ql.nodes[index]? with
  | none =>
    rw [quicklistCompressNode, readNode, readCell, found]
    exact .inl ⟨_, rfl⟩
  | some node =>
    have within := (List.getElem?_eq_some_iff.mp found).1
    refine (quicklistCompressNode_outcome found (intact node (mem_of_getElem? found)) (interior within)).mono ?_
    rintro _ ⟨node', rfl, recoded, unmarked⟩
    refine ⟨recodes_setNode found recoded, ?_, fun i different => getElem?_set_ne (Ne.symm different)⟩
    intro other result free
    rw [setNode, getElem?_set_self within] at result
    cases result
    exact unmarked (recoded.dontCompress.symm.trans free)

/-- The function `__quicklistCompress` restores the compression of the list. -/
theorem compressList_outcome {target : Option Nat} (intact : AllIntact setup ql) (len : ql.len = ql.nodes.length)
    (ready : Ready ql) :
    Flagged (compressList setup ql target) fun ql' => Recodes setup ql ql' ∧ Outer ql' ∧ ∀ i, ql.inner i →
      (i = ql.compress ∨ i + ql.compress + 1 = ql.nodes.length ∨ target = some i) → UnmarkedAt ql' i := by
  rw [compressList]
  by_cases empty : ql.len = 0
  · rw [if_pos empty]
    refine ⟨.refl ql, fun i node found => ?_, fun i inner => ?_⟩
    · have := (List.getElem?_eq_some_iff.mp found).1
      omega
    · unfold Quicklist.inner Inner at inner
      omega
  rw [if_neg empty]
  refine (flagged_readNode ql 0).bind fun head headFound => ?_
  refine (flagged_readNode ql _).bind fun tail tailFound => ?_
  refine (flagged_assert ?_).bind fun _ _ => ?_
  · refine ⟨(ready 0 head headFound ?_).1, (ready _ tail tailFound ?_).1⟩ <;>
      unfold Quicklist.inner Inner <;> omega
  by_cases early : ql.compress = 0 ∨ ql.len < ql.compress * 2
  · rw [if_pos early]
    rw [len] at early
    refine ⟨.refl ql, fun i node found outside => ?_, fun i inner => ?_⟩
    · exact ⟨(ready i node found outside).2 early, (ready i node found outside).1⟩
    · unfold Quicklist.inner Inner at inner
      omega
  rw [if_neg early]
  obtain ⟨ql₁, result, looped, ⟨recodes₁, raw⟩, ends⟩ :=
    compressLoop_spec target ql.compress 0 false intact (by omega)
  rw [Nat.sub_zero] at looped
  rw [looped, ok_bind]
  simp only [Nat.zero_add] at raw ends
  have outer₁ (i : Nat) (node : QuicklistNode) (found : ql₁.nodes[i]? = some node)
      (outside : ¬ ql.inner i) : node.encoding = .raw ∧ node.recompress = false := by
    obtain ⟨node₀, found₀, recoded⟩ := recodes₁.back found
    have within := (List.getElem?_eq_some_iff.mp found₀).1
    refine ⟨raw i node found (.inl ?_), recoded.unmarked (ready i node₀ found₀ outside).1⟩
    unfold Quicklist.inner Inner at outside
    unfold Visited
    omega
  have intact₁ := recodes₁.intact intact
  have length₁ := recodes₁.length
  rcases ends with ⟨rfl, _, whole⟩ | ⟨flag, rfl, more, visited⟩
  · refine ⟨recodes₁, fun i node found outside => outer₁ i node found ?_, fun i inner => ?_⟩
    · rwa [← recodes₁.inner]
    · unfold Quicklist.inner Inner at inner
      omega
  -- only inner nodes are compressed from here on
  have unvisited {k : Nat} (clear : flag = false) (same : target = some k) (within : k < ql.nodes.length) :
      ql.inner k := by
    have missed : ¬ Visited ql.nodes.length 0 ql.compress k := by
      intro seen
      simp [visited.mpr (.inr ⟨k, same, seen⟩)] at clear
    unfold Visited at missed
    unfold Quicklist.inner Inner
    omega
  refine Outcome.bind (show Outcome _ _ fun ql₂ : Quicklist => Recodes setup ql₁ ql₂ ∧
    (∀ k, target = some k → ql.inner k → UnmarkedAt ql₂ k) ∧
    ∀ i, ¬ ql.inner i → ql₂.nodes[i]? = ql₁.nodes[i]? from ?_) ?_
  · cases target with
    | none => exact ⟨.refl _, (fun _ same => by cases same), fun _ _ => rfl⟩
    | some k =>
      cases flag with
      | true =>
        refine ⟨.refl _, fun k' same inner => ?_, fun _ _ => rfl⟩
        obtain ⟨k'', same', seen⟩ := (visited.mp rfl).resolve_left Bool.false_ne_true
        cases same
        cases same'
        unfold Visited at seen
        unfold Quicklist.inner Inner at inner
        omega
      | false =>
        refine (compress_step intact₁ fun within => ?_).mono ?_
        · have inner := unvisited rfl rfl (by rwa [length₁] at within)
          unfold Quicklist.inner Inner at inner
          omega
        · rintro ql₂ ⟨recodes₂, unmarked, others⟩
          refine ⟨recodes₂, fun k' same _ => by cases same; exact unmarked, fun i outside => ?_⟩
          by_cases same : i = k
          · have out : ql.nodes.length ≤ i := by
              by_contra within
              exact outside (unvisited rfl (by rw [same]) (by omega))
            rw [getElem?_eq_none (by rw [recodes₂.length, length₁]; exact out),
              getElem?_eq_none (by rw [length₁]; exact out)]
          · exact others i same
  rintro ql₂ ⟨recodes₂, unmarked₂, others₂⟩
  have recodes' := recodes₁.trans recodes₂
  have length₂ := recodes'.length
  refine (compress_step (recodes'.intact intact) fun _ => by omega).bind ?_
  rintro ql₃ ⟨recodes₃, unmarked₃, others₃⟩
  have recodes'' := recodes'.trans recodes₃
  have length₃ := recodes''.length
  refine (compress_step (recodes''.intact intact) fun _ => by omega).mono ?_
  rintro ql₄ ⟨recodes₄, unmarked₄, others₄⟩
  refine ⟨recodes''.trans recodes₄, fun i node found outside => ?_, fun i inner cause => ?_⟩
  · rw [(recodes''.trans recodes₄).inner] at outside
    have other : i ≠ ql.compress ∧ i ≠ ql.nodes.length - 1 - ql.compress := by
      unfold Quicklist.inner Inner at outside
      omega
    rw [others₄ i other.2, others₃ i other.1, others₂ i outside] at found
    exact outer₁ i node found outside
  · rcases cause with rfl | last | same
    · exact recodes₄.unmarkedAt unmarked₃
    · rwa [show ql.nodes.length - 1 - ql.compress = i by omega] at unmarked₄
    · exact (recodes₃.trans recodes₄).unmarkedAt (unmarked₂ i same inner)

theorem marked_outcome (intact : AllIntact setup ql) (outer : Outer ql) (found : ql.nodes[index]? = some node)
    (marked : node.recompress = true) :
    Flagged (quicklistCompressNode setup ql index) fun ql' => Recodes setup ql ql' ∧ Outer ql' ∧ UnmarkedAt ql' index := by
  have inner : ql.inner index := by
    by_contra outside
    simp [(outer index node found outside).2] at marked
  refine (compress_step intact fun _ => ?_).mono ?_
  · unfold Quicklist.inner Inner at inner
    omega
  · rintro ql' ⟨recodes, unmarked, others⟩
    refine ⟨recodes, fun i node found outside => ?_, unmarked⟩
    rw [recodes.inner] at outside
    rw [others i (fun same => outside (same ▸ inner))] at found
    exact outer i node found outside

theorem unmarkedAt_of (found : ql.nodes[index]? = some node) (unmarked : ¬ node.recompress = true) :
    UnmarkedAt ql index := by
  intro other found' _
  rw [found] at found'
  cases found'
  simpa using unmarked

theorem quicklistCompress_outcome (intact : AllIntact setup ql) (len : ql.len = ql.nodes.length) (outer : Outer ql) :
    Flagged (quicklistCompress setup ql index) fun ql' => Recodes setup ql ql' ∧ Outer ql' ∧ UnmarkedAt ql' index := by
  rw [quicklistCompress]
  refine (flagged_readNode ql index).bind fun node found => ?_
  by_cases marked : node.recompress = true
  · rw [if_pos marked]
    exact marked_outcome intact outer found marked
  · rw [if_neg marked]
    refine (compressList_outcome intact len outer.ready).mono ?_
    rintro ql' ⟨recodes, outer', _⟩
    exact ⟨recodes, outer', recodes.unmarkedAt (unmarkedAt_of found marked)⟩

theorem quicklistRecompressOnly_outcome (intact : AllIntact setup ql) (outer : Outer ql) :
    Flagged (quicklistRecompressOnly setup ql index) fun ql' =>
      Recodes setup ql ql' ∧ Outer ql' ∧ UnmarkedAt ql' index := by
  rw [quicklistRecompressOnly]
  refine (flagged_readNode ql index).bind fun node found => ?_
  by_cases marked : node.recompress = true
  · rw [if_pos marked]
    exact marked_outcome intact outer found marked
  · rw [if_neg marked]
    exact ⟨.refl ql, outer, unmarkedAt_of found marked⟩

section Nodes
def inserted (ql : Quicklist) (index : Nat) (node : QuicklistNode) : Quicklist :=
  { ql with nodes := ql.nodes.insertIdx index node, len := ql.len + 1 }

theorem length_inserted (node : QuicklistNode) (inside : index ≤ ql.nodes.length) :
    (inserted ql index node).nodes.length = ql.nodes.length + 1 := length_insertIdx_of_le_length inside node

theorem forall_inserted {property : QuicklistNode → Prop} (all : ∀ node ∈ ql.nodes, property node)
    (new : property node) : ∀ other ∈ (inserted ql index node).nodes, property other := by
  intro other member
  rcases eq_or_mem_of_mem_insertIdx member with rfl | member
  · exact new
  · exact all other member

/-- A new node does not move another node into the compress depth. -/
theorem outer_inserted (outer : Outer ql) (inside : index ≤ ql.nodes.length) (raw : node.encoding = .raw)
    (unmarked : node.recompress = false) : Outer (inserted ql index node) := by
  intro i other found outside
  rw [Quicklist.inner, length_inserted node inside] at outside
  unfold Inner at outside
  rcases Nat.lt_trichotomy i index with before | rfl | behind
  · rw [inserted, getElem?_insertIdx_of_lt before] at found
    exact outer i other found (by unfold Quicklist.inner Inner; dsimp only [inserted] at outside; omega)
  · rw [inserted, getElem?_insertIdx_self, if_pos inside] at found
    cases found
    exact ⟨raw, unmarked⟩
  · rw [inserted, getElem?_insertIdx_of_gt behind] at found
    exact outer (i - 1) other found (by unfold Quicklist.inner Inner; dsimp only [inserted] at outside; omega)

variable (after : Bool)

/-- The index of a new node next to an old one, and the index of the old one afterwards. -/
def newIndex (index : Nat) : Nat := if after then index + 1 else index
def oldIndex (index : Nat) : Nat := if after then index else index + 1

theorem newIndex_le (inside : index < ql.nodes.length) : newIndex after index ≤ ql.nodes.length := by
  unfold newIndex
  split <;> omega

def erased (ql : Quicklist) (index : Nat) (node : QuicklistNode) : Quicklist :=
  { ql with nodes := ql.nodes.eraseIdx index, len := subtract ql.len 1, count := subtract ql.count node.count }

/-- The index of a node after the deletion of another one. -/
def shifted (index i : Nat) : Nat := if i < index then i else i - 1

theorem getElem?_erased {i : Nat} {other : QuicklistNode} (found : (erased ql index node).nodes[i]? = some other) :
    ∃ k, k ≠ index ∧ ql.nodes[k]? = some other ∧ shifted index k = i := by
  rw [erased, getElem?_eraseIdx] at found
  unfold shifted
  split at found
  · exact ⟨i, by omega, found, if_pos ‹_›⟩
  · exact ⟨i + 1, by omega, found, by rw [if_neg (by omega)]; rfl⟩

theorem quicklistDecompressNodeForUse_eq (found : ql.nodes[index]? = some node) (intact : Intact setup node) :
    ∃ node', quicklistDecompressNodeForUse setup ql index = .ok (setNode ql index node') ∧ node'.encoding = .raw ∧
      node'.dontCompress = node.dontCompress ∧
      (node'.recompress = true → node.recompress = true ∨ node.encoding = .lzf) := by
  rw [quicklistDecompressNodeForUse, readNode_of found, ok_bind]
  cases encoding : node.encoding with
  | raw =>
    refine ⟨node, ?_, encoding, rfl, .inl⟩
    rw [setNode_self found]
    rfl
  | lzf =>
    obtain ⟨_, bytes, compresses, length⟩ := intact encoding
    have decompressed := setup.decompress_compress _ _ compresses
    rw [length] at decompressed
    rw [if_pos rfl, decompressNode, readNode_of found, ok_bind, decompressed]
    dsimp only [pure, Except.pure]
    rw [ok_bind, readNode_of (getElem?_set_self (List.getElem?_eq_some_iff.mp found).1), ok_bind]
    refine ⟨{ node with entry := bytes, encoding := .raw, recompress := true }, ?_, rfl, rfl, fun _ => .inr rfl⟩
    rw [setNode, setNode, setNode, set_set]
end Nodes
end Redis.NodeList

import Redis.Proof.Rax.Insert

namespace Redis.Radix
open Foundation List
variable {V : Type} {h next : RaxNode V} {ts ts' : List (Frame V)} {frame : Frame V} {key bytes : List UInt8}
  {v : Option V} {n n' : Nat}

section Chains
theorem Local.chain (fields : Local h) (chain : ¬ h.stopsChain) : h.iskey = false ∧ ∃ child, Single h child := by
  rw [RaxNode.stopsChain, not_or, not_and_or, Bool.not_eq_true, Bool.not_eq_false, not_not] at chain
  refine ⟨chain.1, ?_⟩
  rcases chain.2 with compressed | one
  · have only := (fields.compressed compressed).2
    exact ⟨_, fields.single compressed (getElem?_eq_getElem (show 0 < h.children.length by omega))⟩
  · have plain : h.iscompr = false := by
      by_contra compressed
      have := (fields.compressed (by simpa using compressed)).1
      rw [RaxNode.size] at one
      omega
    obtain ⟨only, children⟩ := length_eq_one_iff.mp ((fields.plain plain).1.trans one)
    refine ⟨only, children, length_pos_iff.mp (by rw [RaxNode.size] at one; omega), ?_⟩
    rw [RaxNode.size] at one
    rw [plain, one]
    rfl

/-- The nodes from the first one up to a node that has to stay. -/
inductive Chain : RaxNode V → List UInt8 → RaxNode V → Nat → Prop where
  | last {n next : RaxNode V} (single : Single n next) (bare : n.iskey = false) (stops : next.stopsChain) :
      Chain n n.data next 1
  | more {n child next : RaxNode V} {bytes : List UInt8} {k : Nat} (single : Single n child)
      (bare : n.iskey = false) (continues : ¬ child.stopsChain) (chain : Chain child bytes next k) :
      Chain n (n.data ++ bytes) next (k + 1)

theorem exists_chain (valid : Valid h) (starts : ¬ h.stopsChain) : ∃ bytes next k, Chain h bytes next k := by
  induction valid with
  | @mk h fields subtrees _ ih =>
    obtain ⟨bare, child, single⟩ := fields.chain starts
    by_cases stops : child.stopsChain
    · exact ⟨_, _, _, .last single bare stops⟩
    · obtain ⟨bytes, next, k, chain⟩ := ih child (by simp [single.children]) stops
      exact ⟨_, _, _, .more single bare stops chain⟩

variable {k : Nat}
variable (chain : Chain h bytes next k)
include chain
theorem Chain.maps_iff : Maps h key v ↔ ∃ rest, key = bytes ++ rest ∧ Maps next rest v := by
  induction chain generalizing key with
  | last single bare _ => simp [single.maps_iff, bare]
  | more single bare _ _ ih =>
    simp only [single.maps_iff, bare, Bool.false_eq_true, false_and, and_false, false_or, ih]
    constructor
    · rintro ⟨_, rfl, rest, rfl, maps⟩
      exact ⟨rest, (append_assoc ..).symm, maps⟩
    · rintro ⟨rest, rfl, maps⟩
      exact ⟨_, append_assoc .., rest, rfl, maps⟩

theorem Chain.count : nodeCount h = k + nodeCount next := by
  induction chain with
  | last single _ _ => exact single.count
  | more single _ _ _ ih =>
    rw [single.count]
    omega

theorem Chain.length : k ≤ bytes.length := by
  induction chain with
  | last single _ _ => exact length_pos_iff.mpr single.filled
  | more single _ _ _ ih =>
    have := length_pos_iff.mpr single.filled
    rw [length_append]
    omega

theorem Chain.keeps (valid : Valid h) : Valid next ∧ (next.children = [] → next.iskey = true) := by
  induction chain with
  | last single _ _ => exact ⟨valid.child (by simp [single.children]), valid.leaf (by simp [single.children])⟩
  | more single _ _ _ ih => exact ih (valid.child (by simp [single.children]))

omit chain

theorem Single.lastChild {child : RaxNode V} (single : Single h child) : raxNodeLastChild h = .ok child := by
  rw [raxNodeLastChild, single.children]
  rfl

theorem Single.size_ne {child : RaxNode V} (single : Single h child) : h.size ≠ 0 :=
  (length_pos_iff.mpr single.filled).ne'

theorem Chain.size_le (chain : Chain h bytes next k) : h.size ≤ bytes.length := by
  cases chain with
  | last => exact le_rfl
  | more => simp [RaxNode.size]

/-- The first scan sees the whole chain if its bytes fit in one node, and it never counts more than fits. -/
theorem Chain.scan (chain : Chain h bytes next k) {fuel : Nat} (comprsize nodes : Nat) (enough : k ≤ fuel) :
    ∃ size visited, scanLoop fuel h (comprsize + h.size) (nodes + 1) = .ok (size, nodes + 1 + visited) ∧
      (comprsize + bytes.length ≤ raxNodeMaxSize → size = comprsize + bytes.length ∧ visited + 1 = k) ∧
      (comprsize + h.size ≤ raxNodeMaxSize → size ≤ raxNodeMaxSize) := by
  induction chain generalizing fuel comprsize nodes with
  | last single _ stops =>
    obtain ⟨fuel, rfl⟩ := Nat.exists_eq_succ_of_ne_zero (by omega : fuel ≠ 0)
    rw [scanLoop, if_neg single.size_ne, single.lastChild, ok_bind, if_pos stops]
    exact ⟨_, 0, rfl, fun _ => ⟨rfl, rfl⟩, id⟩
  | @more h child next bytes k single _ continues chain ih =>
    obtain ⟨fuel, rfl⟩ := Nat.exists_eq_succ_of_ne_zero (by omega : fuel ≠ 0)
    have size := chain.size_le
    rw [length_append, ← RaxNode.size, scanLoop, if_neg single.size_ne, single.lastChild, ok_bind, if_neg continues]
    by_cases long : comprsize + h.size + child.size > raxNodeMaxSize
    · rw [if_pos long]
      exact ⟨_, 0, rfl, by omega, id⟩
    · rw [if_neg long]
      obtain ⟨size, visited, scanned, whole, within⟩ := ih (comprsize + h.size) (nodes + 1) (show k ≤ fuel by omega)
      refine ⟨size, visited + 1, by rw [scanned, add_right_comm _ 1 visited]; rfl, fun fits => ?_, fun _ => within (by omega)⟩
      omega

theorem Chain.copy (chain : Chain h bytes next k) {fuel freed : Nat} {copied : List UInt8} (enough : k ≤ fuel) :
    copyLoop fuel h copied freed = .ok (copied ++ bytes, next, freed + k) := by
  induction chain generalizing fuel copied freed with
  | last single _ stops =>
    obtain ⟨fuel, rfl⟩ := Nat.exists_eq_succ_of_ne_zero (by omega : fuel ≠ 0)
    rw [copyLoop, if_neg single.size_ne, single.lastChild, ok_bind, if_pos stops]
    rfl
  | more single _ continues _ ih =>
    obtain ⟨fuel, rfl⟩ := Nat.exists_eq_succ_of_ne_zero (by omega : fuel ≠ 0)
    rw [copyLoop, if_neg single.size_ne, single.lastChild, ok_bind, if_neg continues, ih (by omega), append_assoc]
    congr 3
    omega

theorem exists_maps (valid : Valid h) (leaf : h.children = [] → h.iskey = true) : ∃ key v, Maps h key v := by
  induction valid with
  | @mk h fields subtrees leaves ih =>
    cases children : h.children with
    | nil => exact ⟨[], h.value, .here (leaf children)⟩
    | cons child others =>
      have member : child ∈ h.children := by simp [children]
      obtain ⟨key, v, maps⟩ := ih child member (leaves child member)
      exact ⟨_, v, .down (i := 0) (by rw [children]; rfl) maps⟩

theorem climbLoop_spec (frames : FramesOk ts) (valid : Valid h) (starts : ¬ h.stopsChain) :
    plug (climbLoop ts h).2 (climbLoop ts h).1 = plug ts h ∧ FramesOk (climbLoop ts h).2 ∧
      Valid (climbLoop ts h).1 ∧ ¬ (climbLoop ts h).1.stopsChain := by
  induction ts generalizing h with
  | nil => exact ⟨rfl, frames, valid, starts⟩
  | cons parent ts ih =>
    rw [climbLoop]
    split
    · exact ⟨rfl, frames, valid, starts⟩
    · rename_i continues
      obtain ⟨_, child, single⟩ := valid.fields.chain starts
      have inner : FramesOk ts := fun other member => frames other (by simp [member])
      refine ih inner (valid_plugFrame (frames parent (by simp)) valid ?_) continues
      simp [single.children]

/-- The bytes of the chain fit in one node, or those of its first two nodes already do not. -/
def Fits (start : RaxNode V) (bytes : List UInt8) : Prop :=
  bytes.length ≤ raxNodeMaxSize ∨ ∀ child ∈ start.children, raxNodeMaxSize < start.size + child.size

/-- The first scan merges nothing or the whole chain. -/
theorem Chain.scan_fits (chain : Chain h bytes next k) (enough : k ≤ n) (fits : Fits h bytes) :
    scanLoop n h h.size 1 = .ok (h.size, 1) ∨ scanLoop n h h.size 1 = .ok (bytes.length, k) := by
  by_cases whole : bytes.length ≤ raxNodeMaxSize
  · obtain ⟨size, visited, scanned, exact, _⟩ := chain.scan 0 0 enough
    obtain ⟨rfl, rfl⟩ := exact (by omega)
    rw [Nat.zero_add, Nat.zero_add, Nat.zero_add, add_comm 1] at scanned
    exact .inr scanned
  · have two := fits.resolve_left whole
    cases chain with
    | last single _ stops =>
      obtain ⟨n, rfl⟩ := Nat.exists_eq_succ_of_ne_zero (by omega : n ≠ 0)
      rw [scanLoop, if_neg single.size_ne, single.lastChild, ok_bind, if_pos stops]
      exact .inl rfl
    | @more _ child _ _ _ single _ continues chain =>
      obtain ⟨n, rfl⟩ := Nat.exists_eq_succ_of_ne_zero (by omega : n ≠ 0)
      rw [scanLoop, if_neg single.size_ne, single.lastChild, ok_bind, if_neg continues,
        if_pos (two child (by simp [single.children]))]
      exact .inl rfl

/-- A chain of which only a part fits is measured as that part. -/
theorem Chain.scan_long (chain : Chain h bytes next k) (enough : k ≤ n) (long : ¬ Fits h bytes) :
    ∃ size visited, scanLoop n h h.size 1 = .ok (size, visited) ∧ 1 < visited ∧ size < bytes.length := by
  obtain ⟨whole, two⟩ := not_or.mp long
  cases chain with
  | last single =>
    refine absurd (fun child _ => ?_) two
    rw [RaxNode.size]
    omega
  | @more _ child _ _ _ single _ continues chain =>
    have few : h.size + child.size ≤ raxNodeMaxSize := by simpa [single.children] using two
    obtain ⟨n, rfl⟩ := Nat.exists_eq_succ_of_ne_zero (by omega : n ≠ 0)
    obtain ⟨size, visited, scanned, _, within⟩ := chain.scan h.size 1 (show _ ≤ n by omega)
    refine ⟨size, 1 + 1 + visited, ?_, by omega, lt_of_le_of_lt (within few) (not_le.mp whole)⟩
    rw [scanLoop, if_neg single.size_ne, single.lastChild, ok_bind, if_neg continues, if_neg (by omega), scanned]

theorem recompress_of_fits (frames : FramesOk ts) (valid : Valid h) (starts : ¬ h.stopsChain)
    (chain : Chain (climbLoop ts h).1 bytes next k) (fits : Fits (climbLoop ts h).1 bytes)
    (counted : n = nodeCount (plug ts h)) :
    ∃ head' n', recompress h ts n = .ok (head', n') ∧ Valid head' ∧ n' = nodeCount head' ∧
      ∀ key v, Maps head' key v ↔ Maps (plug ts h) key v := by
  obtain ⟨plugged, frames', valid', starts'⟩ := climbLoop_spec frames valid starts
  rw [recompress]
  generalize climbLoop ts h = climbed at plugged frames' valid' starts' chain fits
  obtain ⟨start, ts'⟩ := climbed
  dsimp only at plugged frames' valid' starts' chain fits ⊢
  rw [← plugged] at counted ⊢
  obtain ⟨nextValid, nextLeaf⟩ := chain.keeps valid'
  have size := chain.count
  have enough : k ≤ n := by
    rw [counted, nodeCount_plug frames']
    omega
  have unchanged : ∃ head' n', (Except.ok (plug ts' start, n) : Checked (RaxNode V × Nat)) = .ok (head', n') ∧
      Valid head' ∧ n' = nodeCount head' ∧ ∀ key v, Maps head' key v ↔ Maps (plug ts' start) key v := by
    obtain ⟨_, child, single⟩ := valid'.fields.chain starts'
    exact ⟨_, _, rfl, valid_plug frames' valid' (by simp [single.children]), counted, fun _ _ => Iff.rfl⟩
  rcases chain.scan_fits enough fits with scanned | scanned
  · rw [scanned]
    exact unchanged
  rw [scanned, ok_bind]
  by_cases several : k > 1
  · rw [if_pos several, chain.copy enough, ok_bind, nil_append]
    dsimp only
    rw [if_neg (by simp)]
    have length := chain.length
    have single : Single (⟨false, false, true, bytes, [next], none⟩ : RaxNode V) next :=
      ⟨rfl, length_pos_iff.mp (show 0 < bytes.length by omega),
        (decide_eq_true (show bytes.length > 1 by omega)).symm⟩
    have reshaped : Reshaped ts' start n ts' ⟨false, false, true, bytes, [next], none⟩ (n + 1 - (0 + k)) := by
      refine .local frames' (single.valid nofun nextValid nextLeaf) (fun key v => ?_) ?_
      · simp [single.maps_iff, chain.maps_iff]
      · rw [single.count]
        omega
    refine ⟨_, _, rfl, valid_plug reshaped.frames reshaped.valid (fun _ empty => by cases empty), ?_, reshaped.maps⟩
    have := reshaped.count
    omega
  · rw [if_neg several]
    exact unchanged

/-- The recompression of a tree with bounded keys keeps the keys and the node count. -/
theorem recompress_spec (frames : FramesOk ts) (valid : Valid h) (starts : ¬ h.stopsChain)
    (bounded : ∀ key v, Maps (plug ts h) key v → key.length ≤ raxNodeMaxSize) (counted : n = nodeCount (plug ts h)) :
    ∃ head' n', recompress h ts n = .ok (head', n') ∧ Valid head' ∧ n' = nodeCount head' ∧
      ∀ key v, Maps head' key v ↔ Maps (plug ts h) key v := by
  obtain ⟨plugged, frames', valid', starts'⟩ := climbLoop_spec frames valid starts
  obtain ⟨bytes, next, k, chain⟩ := exists_chain valid' starts'
  obtain ⟨nextValid, nextLeaf⟩ := chain.keeps valid'
  obtain ⟨key, v, maps⟩ := exists_maps nextValid nextLeaf
  have path := (maps_plug_path frames').mpr (chain.maps_iff.mpr ⟨key, rfl, maps⟩)
  rw [plugged] at path
  have short := bounded _ v path
  rw [length_append, length_append] at short
  exact recompress_of_fits frames valid starts chain (.inl (by omega)) counted
end Chains

theorem side_chain (ok : FrameOk frame) (chain : ¬ frame.node.stopsChain) :
    (∀ key v, ¬ frame.Side key v) ∧ frame.node.children.length = 1 := by
  obtain ⟨bare, child, single⟩ := ok.fields.chain chain
  have one : frame.node.children.length = 1 := by rw [single.children]; rfl
  refine ⟨fun key v => ?_, one⟩
  rintro (⟨_, iskey, _⟩ | ⟨i, other, _, different, found, _⟩)
  · simp [bare] at iskey
  · obtain ⟨inside, _⟩ := List.getElem?_eq_some_iff.mp found
    have := ok.inside
    omega

theorem cleanupLoop_spec (frames : FramesOk (frame :: ts)) (counted : n = outsideCount (frame :: ts) + 1) :
    ∃ frame' ts' n', cleanupLoop frame ts n = (frame', ts', n') ∧ FramesOk (frame' :: ts') ∧
      n' = outsideCount (frame' :: ts') ∧ (ts' = [] ∨ frame'.node.stopsChain) ∧
      ∀ key v, Outside (frame' :: ts') key v ↔ Outside (frame :: ts) key v := by
  induction ts generalizing frame n with
  | nil => exact ⟨_, _, _, rfl, frames, by omega, .inl rfl, fun _ _ => Iff.rfl⟩
  | cons parent ts ih =>
    rw [cleanupLoop]
    by_cases stops : frame.node.stopsChain
    · exact ⟨_, _, _, if_pos stops, frames, by omega, .inr stops, fun _ _ => Iff.rfl⟩
    · have ok := frames frame (by simp)
      have inner : FramesOk (parent :: ts) := fun other member => frames other (by simp [member])
      have inside := ok.inside
      obtain ⟨beside, one⟩ := side_chain ok stops
      have erased : frame.node.children.eraseIdx frame.index = [] := by
        rw [← length_eq_zero_iff, length_eraseIdx_of_lt inside, one]
      rw [if_neg stops]
      obtain ⟨frame', ts', n', looped, frames', counted', stops', outside⟩ := ih inner (n := n - 1) (by
        rw [counted]
        conv_lhs => rw [outsideCount, erased]
        simp)
      refine ⟨frame', ts', n', looped, frames', counted', stops', fun key v => (outside key v).trans ?_⟩
      conv_rhs => rw [Outside]
      simp [beside]

/-- The node holds what lies beside the child of a frame. -/
structure Beside (frame : Frame V) (new : RaxNode V) : Prop where
  valid : Valid new
  maps : ∀ key v, Maps new key v ↔ frame.Side key v
  count : nodeCount new = 1 + ((frame.node.children.eraseIdx frame.index).map nodeCount).sum
  leaf : frame.node.stopsChain → new.children = [] → new.iskey = true

theorem beside_compressed (ok : FrameOk frame) (compressed : frame.node.iscompr = true) {bare : RaxNode V}
    (childless : bare.children = []) (plain : bare.iscompr = false) (data : bare.data = [])
    (keyless : frame.node.iskey = false → bare.iskey = false) : Beside frame (withKey frame.node bare) := by
  have one := (ok.fields.compressed compressed).2
  have inside := ok.inside
  have erased : frame.node.children.eraseIdx frame.index = [] := by
    rw [← length_eq_zero_iff, length_eraseIdx_of_lt inside, one]
  have none : (withKey frame.node bare).children = [] := (withKey_children bare).trans childless
  have fields : Local (withKey frame.node bare) := by
    refine ⟨fun compressed => ?_, fun _ => ?_, withKey_valued keyless⟩
    · rw [withKey_iscompr, plain] at compressed
      cases compressed
    · rw [none, withKey_data, data]
      exact ⟨rfl, .nil⟩
  refine ⟨.mk fields (by simp [none]) (by simp [none]), fun key v => ?_, by rw [nodeCount_eq, none, erased], ?_⟩
  · rw [maps_iff, withKey_maps keyless, none]
    refine or_congr Iff.rfl (iff_of_false ?_ ?_)
    · rintro ⟨i, child, rest, found, _⟩
      simp at found
    · rintro ⟨i, child, rest, different, found, _⟩
      obtain ⟨inside', _⟩ := List.getElem?_eq_some_iff.mp found
      omega
  · rintro (set | ⟨plain', _⟩) _
    · exact ((withKey_maps (v := frame.node.value) keyless).mpr ⟨set, rfl⟩).1
    · simp [compressed] at plain'

/-- The index before the removal of a child. -/
def skip (index i : Nat) : Nat := if i < index then i else i + 1

theorem skip_ne (index i : Nat) : skip index i ≠ index := by
  rw [skip]
  split <;> omega

theorem exists_skip {index k : Nat} (different : k ≠ index) : ∃ i, skip index i = k := by
  rcases Nat.lt_or_gt_of_ne different with before | after
  · exact ⟨k, if_pos before⟩
  · exact ⟨k - 1, by rw [skip, if_neg (by omega)]; omega⟩

theorem getElem?_eraseIdx_skip {A : Type} (items : List A) (index i : Nat) :
    (items.eraseIdx index)[i]? = items[skip index i]? := by
  rw [getElem?_eraseIdx, skip]
  split <;> rfl

theorem beside_plain (ok : FrameOk frame) (plain : frame.node.iscompr = false) : Beside frame { frame.node with
      data := frame.node.data.eraseIdx frame.index, children := frame.node.children.eraseIdx frame.index } := by
  obtain ⟨same, sorted⟩ := ok.fields.plain plain
  have inside := ok.inside
  have letters := length_eraseIdx_of_lt (same ▸ inside)
  have nodes := length_eraseIdx_of_lt inside
  have each {child : RaxNode V} (member : child ∈ frame.node.children.eraseIdx frame.index) :
      ∃ k, k ≠ frame.index ∧ frame.node.children[k]? = some child := by
    obtain ⟨i, found⟩ := mem_iff_getElem?.mp member
    exact ⟨_, skip_ne _ i, by rw [← found, getElem?_eraseIdx_skip]⟩
  refine ⟨.mk ⟨fun compressed => ?_, fun _ => ⟨by dsimp only; omega, sorted.eraseIdx _⟩, ok.fields.valued⟩ ?_ ?_,
    fun key v => ?_, nodeCount_eq _, ?_⟩
  · simp [plain] at compressed
  · intro child member
    obtain ⟨k, different, found⟩ := each member
    exact ok.subtrees k child different found
  · intro child member
    obtain ⟨k, different, found⟩ := each member
    exact ok.leaves k child different found
  · rw [maps_iff]
    refine or_congr Iff.rfl ?_
    simp only [RaxNode.label, plain, getElem?_eraseIdx_skip]
    constructor
    · rintro ⟨i, child, rest, found⟩
      exact ⟨_, child, rest, skip_ne _ i, found⟩
    · rintro ⟨k, child, rest, different, found⟩
      obtain ⟨i, rfl⟩ := exists_skip different
      exact ⟨i, child, rest, found⟩
  · rintro (set | ⟨_, several⟩) empty
    · exact set
    · rw [← length_eq_zero_iff] at empty
      rw [RaxNode.size] at several
      dsimp only at empty
      omega

theorem raxRemoveChild_spec (ok : FrameOk frame) :
    ∃ new, raxRemoveChild frame.node frame.index = .ok new ∧ Beside frame new := by
  rw [raxRemoveChild]
  cases compressed : frame.node.iscompr with
  | true =>
    rw [withKey_eq ok.fields]
    exact ⟨_, rfl, beside_compressed ok compressed rfl rfl rfl id⟩
  | false =>
    exact ⟨_, rfl, by simpa only [compressed] using beside_plain ok compressed⟩

theorem fields_clear (fields : Local h) : Local { h with iskey := false } := ⟨fields.compressed, fields.plain, nofun⟩

theorem valid_clear (valid : Valid h) : Valid { h with iskey := false } :=
  .mk (fields_clear valid.fields) (fun _ => valid.child) (fun _ => valid.leaf)

theorem nodeCount_clear : nodeCount { h with iskey := false } = nodeCount h := by
  rw [nodeCount_eq, nodeCount_eq h]

theorem maps_clear (fields : Local h) : Maps { h with iskey := false } key v ↔ key ≠ [] ∧ Maps h key v := by
  by_cases empty : key = []
  · subst empty
    rw [maps_nil_iff (fields_clear fields)]
    simp
  · rw [maps_iff, maps_iff (n := h)]
    simp [empty, RaxNode.label]

/-- The second tree has all keys but the given one. -/
def Removes (head head' : RaxNode V) (key : List UInt8) : Prop :=
  ∀ other v, Maps head' other v ↔ other ≠ key ∧ Maps head other v

theorem removes_plug (frames : FramesOk ts) (fields : Local h) :
    Removes (plug ts h) (plug ts { h with iskey := false }) (path ts) := by
  intro other v
  rw [maps_plug frames, maps_plug frames]
  simp only [maps_clear fields]
  constructor
  · rintro (outside | ⟨rest, rfl, some, maps⟩)
    · exact ⟨by simpa using outside_ne frames outside [], .inl outside⟩
    · exact ⟨by simpa using some, .inr ⟨rest, rfl, maps⟩⟩
  · rintro ⟨different, outside | ⟨rest, rfl, maps⟩⟩
    · exact .inl outside
    · exact .inr ⟨rest, rfl, by simpa using different, maps⟩

theorem Local.size (fields : Local h) : h.size = 0 ↔ h.children = [] := by
  rw [← length_eq_zero_iff, RaxNode.size]
  cases compressed : h.iscompr with
  | true =>
    have := fields.compressed compressed
    omega
  | false => rw [(fields.plain compressed).1]

theorem Removes.trans {head middle head' : RaxNode V} (removes : Removes head middle key)
    (same : ∀ other v, Maps head' other v ↔ Maps middle other v) : Removes head head' key :=
  fun other v => (same other v).trans (removes other v)

theorem reclaim_spec (frames : FramesOk ts) (valid : Valid h) (bare : h.iskey = false)
    (bounded : ∀ key v, Maps (plug ts h) key v → key.length ≤ raxNodeMaxSize) (counted : n = nodeCount (plug ts h)) :
    ∃ head' n', reclaim h ts n = .ok (head', n') ∧ Valid head' ∧ n' = nodeCount head' ∧
      ∀ key v, Maps head' key v ↔ Maps (plug ts h) key v := by
  have sizes := valid.fields.size
  unfold reclaim
  by_cases childless : h.size = 0
  · rw [if_pos childless]
    have none : h.children = [] := sizes.mp childless
    cases ts with
    | nil => exact ⟨_, _, rfl, valid, counted, fun _ _ => Iff.rfl⟩
    | cons frame ts =>
      have kept (key : List UInt8) (v : Option V) : Maps (plug (frame :: ts) h) key v ↔ Outside (frame :: ts) key v := by
        rw [maps_plug frames]
        refine ⟨fun maps => maps.elim id ?_, .inl⟩
        rintro ⟨rest, _, below⟩
        rw [maps_iff] at below
        simp [none, bare] at below
      have leafCount : nodeCount h = 1 := by rw [nodeCount_eq, none]; rfl
      obtain ⟨frame', ts', n', cleaned, frames', counted', stops, outside⟩ :=
        cleanupLoop_spec (n := n) frames (by rw [counted, nodeCount_plug frames, leafCount])
      obtain ⟨new, removed, beside⟩ := raxRemoveChild_spec (frames' frame' (by simp))
      have inner : FramesOk ts' := fun other member => frames' other (by simp [member])
      have count : n' = nodeCount (plug ts' new) := by
        rw [counted', nodeCount_plug inner, beside.count, outsideCount]
      have same (key : List UInt8) (v : Option V) :
          Maps (plug ts' new) key v ↔ Maps (plug (frame :: ts) h) key v := by
        rw [kept, ← outside, maps_plug inner, Outside]
        simp only [beside.maps]
      dsimp only
      rw [cleaned]
      rw [removed, ok_bind]
      by_cases single : new.size = 1 ∧ new.iskey = false
      · rw [if_pos single]
        obtain ⟨head', n'', compressed, valid', counted'', same'⟩ := recompress_spec inner beside.valid
          (by simp [RaxNode.stopsChain, single]) (fun key v maps => bounded key v ((same key v).mp maps)) count
        exact ⟨head', n'', compressed, valid', counted'', fun key v => (same' key v).trans (same key v)⟩
      · rw [if_neg single]
        refine ⟨_, _, rfl, valid_plug inner beside.valid (fun outer => ?_), count, same⟩
        exact beside.leaf (stops.resolve_left outer)
  · rw [if_neg childless]
    by_cases single : h.size = 1
    · rw [if_pos single]
      exact recompress_spec frames valid (by simp [RaxNode.stopsChain, single, bare]) bounded counted
    · rw [if_neg single]
      exact ⟨_, _, rfl, valid_plug frames valid (fun _ empty => absurd (sizes.mpr empty) childless), counted,
        fun _ _ => Iff.rfl⟩

theorem raxRemove_spec {rax : Rax V} (valid : Valid rax.head) (counted : rax.numnodes = nodeCount rax.head)
    (bounded : ∀ key v, Maps rax.head key v → key.length ≤ raxNodeMaxSize) (key : List UInt8) :
    ∃ rax' result, raxRemove rax key = .ok (rax', result) ∧ Valid rax'.head ∧ rax'.numnodes = nodeCount rax'.head ∧
      ((∃ old, Maps rax.head key old ∧ result = ⟨true, some old⟩ ∧ rax'.numele = rax.numele - 1 ∧
          Removes rax.head rax'.head key) ∨
        ((∀ v, ¬ Maps rax.head key v) ∧ result = ⟨false, none⟩ ∧ rax' = rax)) := by
  obtain ⟨⟨rest, h, j, ts⟩, walked, arrived⟩ := raxLowWalk_head valid key
  have maps (v : Option V) := arrived.maps_iff (v := v)
  obtain ⟨plugged, frames, stopValid, leaf, same, stop⟩ := arrived
  rw [raxRemove, walked, ok_bind]
  by_cases found : rest = [] ∧ j = 0 ∧ h.iskey = true
  · obtain ⟨rfl, rfl, iskey⟩ := found
    have same : key = path ts := by simpa using same
    have cleared := removes_plug frames stopValid.fields
    rw [← same, plugged] at cleared
    have bounded' (other : List UInt8) (v : Option V) (present : Maps (plug ts { h with iskey := false }) other v) :=
      bounded other v ((cleared other v).mp present).2
    have count : rax.numnodes = nodeCount (plug ts { h with iskey := false }) := by
      rw [counted, ← plugged, nodeCount_plug frames, nodeCount_plug frames, nodeCount_clear]
    rw [if_neg (fun missing => stop.notFound_iff.mp missing ⟨rfl, rfl, iskey⟩), raxGetData_eq stopValid.fields iskey,
      ok_bind]
    obtain ⟨head', n', reclaimed, valid', counted', removes⟩ := reclaim_spec frames (valid_clear stopValid) rfl
      bounded' count
    rw [reclaimed]
    exact ⟨_, _, rfl, valid', counted',
      .inl ⟨_, (maps _).mpr ⟨rfl, rfl, iskey, rfl⟩, rfl, rfl, cleared.trans removes⟩⟩
  · rw [if_pos (stop.notFound_iff.mpr found)]
    refine ⟨_, _, rfl, valid, counted, .inr ⟨fun v present => ?_, rfl, rfl⟩⟩
    obtain ⟨ended, zero, iskey, _⟩ := (maps v).mp present
    exact found ⟨ended, zero, iskey⟩

/-- A chain of which only a part fits is copied beyond the new node. -/
theorem recompress_of_long {k : Nat} (chain : Chain (climbLoop ts h).1 bytes next k) (enough : k ≤ n)
    (long : ¬ Fits (climbLoop ts h).1 bytes) : recompress h ts n = .error .outOfBounds := by
  obtain ⟨size, visited, scanned, several, short⟩ := chain.scan_long enough long
  rw [recompress]
  dsimp only
  rw [scanned, ok_bind]
  rw [if_pos several, chain.copy enough, ok_bind]
  rw [nil_append, if_pos short.ne']
  rfl

/-- The nodes that two insertions leave: one key of two bytes more than a node can hold, and the key `d`. -/
def longTree (front : List UInt8) : Rax Unit :=
  let leaf : RaxNode Unit := ⟨true, true, false, [], [], none⟩
  ⟨⟨false, false, false, [98, 100], [postfixNode front ⟨false, false, true, [99, 99], [leaf], none⟩, leaf], none⟩, 2, 5⟩

theorem raxRemove_longTree {front : List UInt8} (full : front.length = raxNodeMaxSize - 1) :
    raxRemove (longTree front) [100] = .error .outOfBounds := by
  have size : raxNodeMaxSize = 2 ^ 29 - 1 := rfl
  set leaf : RaxNode Unit := ⟨true, true, false, [], [], none⟩
  set upper := postfixNode front ⟨false, false, true, [99, 99], [leaf], none⟩
  have chain : Chain ⟨false, false, false, [98], [upper], none⟩ ([98] ++ (front ++ [99, 99])) leaf 3 := by
    refine .more ⟨rfl, nofun, rfl⟩ rfl ?_
      (.more ⟨rfl, ?_, rfl⟩ rfl (by decide) (.last ⟨rfl, nofun, rfl⟩ rfl (.inl rfl)))
    · simp [RaxNode.stopsChain, upper, postfixNode]
      omega
    · exact length_pos_iff.mp (show 0 < front.length by omega)
  have long : ¬ Fits ⟨false, false, false, [98], [upper], none⟩ ([98] ++ (front ++ [99, 99])) := by
    rw [Fits, not_or]
    constructor
    · simp only [length_append, length_cons]
      omega
    · intro two
      have := two upper (by simp)
      simp only [RaxNode.size, upper, postfixNode, length_singleton] at this
      omega
  have overflow := @recompress_of_long _ ⟨false, false, false, [98], [upper], none⟩ _ [] _ 4 _ chain (by decide) long
  change (recompress ⟨false, false, false, [98], [upper], none⟩ [] 4 >>= _) = _
  rw [overflow]
  rfl

end Redis.Radix

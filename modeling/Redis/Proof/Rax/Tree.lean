import Redis.Construction.Rax

namespace Redis.Radix
open Foundation List
variable {V : Type} {n h : RaxNode V} {ts : List (Frame V)} {frame : Frame V} {key rest : List UInt8} {v : Option V}

def RaxNode.value (n : RaxNode V) : Option V := if n.isnull then none else n.slot

/-- The bytes on the edge to a child. -/
def RaxNode.label (n : RaxNode V) (i : Nat) : List UInt8 := if n.iscompr then n.data else n.data[i]?.toList

/-- The subtree maps a byte string to a value. -/
inductive Maps : RaxNode V → List UInt8 → Option V → Prop where
  | here {n : RaxNode V} (key : n.iskey = true) : Maps n [] n.value
  | down {n child : RaxNode V} {i : Nat} {rest : List UInt8} {v : Option V} (found : n.children[i]? = some child)
      (maps : Maps child rest v) : Maps n (n.label i ++ rest) v

/-- The conditions on the fields of one node. -/
structure Local (n : RaxNode V) : Prop where
  compressed : n.iscompr = true → 2 ≤ n.data.length ∧ n.children.length = 1
  plain : n.iscompr = false → n.children.length = n.data.length ∧ n.data.Pairwise (· < ·)
  valued : n.iskey = true → n.isnull = false → n.slot.isSome = true

/-- Every node of the subtree has well-formed fields, and every leaf below its root is a key. -/
inductive Valid : RaxNode V → Prop where
  | mk {n : RaxNode V} (fields : Local n) (subtrees : ∀ child ∈ n.children, Valid child)
      (leaves : ∀ child ∈ n.children, child.children = [] → child.iskey = true) : Valid n

theorem Valid.fields (valid : Valid n) : Local n := by
  cases valid
  assumption

theorem Valid.child {child : RaxNode V} (valid : Valid n) (member : child ∈ n.children) : Valid child := by
  cases valid with
  | mk _ subtrees _ => exact subtrees child member

theorem Valid.leaf {child : RaxNode V} (valid : Valid n) (member : child ∈ n.children)
    (bare : child.children = []) : child.iskey = true := by
  cases valid with
  | mk _ _ leaves => exact leaves child member bare

theorem maps_iff : Maps n key v ↔ (key = [] ∧ n.iskey = true ∧ n.value = v) ∨
    ∃ i child rest, n.children[i]? = some child ∧ key = n.label i ++ rest ∧ Maps child rest v := by
  constructor
  · rintro (⟨iskey⟩ | ⟨found, maps⟩)
    · exact .inl ⟨rfl, iskey, rfl⟩
    · exact .inr ⟨_, _, _, found, rfl, maps⟩
  · rintro (⟨rfl, iskey, rfl⟩ | ⟨i, child, rest, found, rfl, maps⟩)
    · exact .here iskey
    · exact .down found maps

theorem not_maps_new : ¬ Maps (raxNewNode : RaxNode V) key v := by
  rw [maps_iff]
  rintro (⟨_, iskey, _⟩ | ⟨i, child, rest, found, _⟩)
  · cases iskey
  · simp [raxNewNode] at found

section Labels
variable {i k : Nat} {rest' : List UInt8}

theorem Local.index_of_compressed (fields : Local n) (compressed : n.iscompr = true)
    (inside : i < n.children.length) : i = 0 := by
  have := (fields.compressed compressed).2
  omega

theorem Local.label_compressed (compressed : n.iscompr = true) : n.label i = n.data := if_pos compressed

theorem Local.label_plain (fields : Local n) (plain : n.iscompr = false) (inside : i < n.children.length) :
    ∃ c, n.data[i]? = some c ∧ n.label i = [c] := by
  rw [(fields.plain plain).1] at inside
  refine ⟨n.data[i], getElem?_eq_getElem inside, ?_⟩
  rw [RaxNode.label, if_neg (by simp [plain]), getElem?_eq_getElem inside]
  rfl

theorem Local.label_ne_nil (fields : Local n) (inside : i < n.children.length) : n.label i ≠ [] := by
  cases compressed : n.iscompr with
  | true =>
    have long := (fields.compressed compressed).1
    rw [Local.label_compressed compressed]
    rintro empty
    simp [empty] at long
  | false =>
    obtain ⟨c, _, label⟩ := fields.label_plain compressed inside
    simp [label]

/-- Two edges of a node never start with the same bytes. -/
theorem Local.label_unique (fields : Local n) (inside : i < n.children.length) (inside' : k < n.children.length)
    (same : n.label i ++ rest = n.label k ++ rest') : i = k ∧ rest = rest' := by
  cases compressed : n.iscompr with
  | true =>
    rw [Local.label_compressed compressed, Local.label_compressed compressed] at same
    rw [fields.index_of_compressed compressed inside, fields.index_of_compressed compressed inside']
    exact ⟨rfl, append_cancel_left same⟩
  | false =>
    obtain ⟨c, first, label⟩ := fields.label_plain compressed inside
    obtain ⟨d, second, label'⟩ := fields.label_plain compressed inside'
    rw [label, label'] at same
    obtain ⟨rfl, rfl⟩ := same
    have distinct : n.data.Nodup := (fields.plain compressed).2.imp UInt8.ne_of_lt
    obtain ⟨bound, _⟩ := List.getElem?_eq_some_iff.mp first
    exact ⟨(getElem?_inj bound distinct).mp (first.trans second.symm), rfl⟩

theorem maps_nil_iff (fields : Local n) : Maps n [] v ↔ n.iskey = true ∧ n.value = v := by
  rw [maps_iff]
  constructor
  · rintro (⟨_, iskey, value⟩ | ⟨i, child, rest, found, same, _⟩)
    · exact ⟨iskey, value⟩
    · obtain ⟨inside, _⟩ := List.getElem?_eq_some_iff.mp found
      have empty := append_eq_nil_iff.mp same.symm
      exact absurd empty.1 (fields.label_ne_nil inside)
  · rintro ⟨iskey, value⟩
    exact .inl ⟨rfl, iskey, value⟩
end Labels

def nodeCount : RaxNode V → Nat
  | ⟨_, _, _, _, children, _⟩ => 1 + countAll children
where
  countAll : List (RaxNode V) → Nat
    | [] => 0
    | child :: children => nodeCount child + countAll children

theorem nodeCount_eq (n : RaxNode V) : nodeCount n = 1 + (n.children.map nodeCount).sum := by
  have all (children : List (RaxNode V)) : nodeCount.countAll children = (children.map nodeCount).sum := by
    induction children with
    | nil => rfl
    | cons child children ih => rw [nodeCount.countAll, ih, map_cons, sum_cons]
  obtain ⟨_, _, _, _, children, _⟩ := n
  rw [nodeCount, all]

theorem sum_set {A : Type} (f : A → Nat) (items : List A) {i : Nat} (inside : i < items.length) (x : A) :
    ((items.set i x).map f).sum = f x + ((items.eraseIdx i).map f).sum := by
  induction items generalizing i with
  | nil => simp at inside
  | cons item items ih =>
    cases i with
    | zero => rfl
    | succ i =>
      simp only [set_cons_succ, eraseIdx_cons_succ, map_cons, sum_cons]
      rw [ih (by simpa using inside)]
      omega

def Frame.label (frame : Frame V) : List UInt8 := frame.node.label frame.index

/-- The path of the walk from the head. -/
def path : List (Frame V) → List UInt8
  | [] => []
  | frame :: ts => path ts ++ frame.label

/-- The keys of a frame that do not lie below its marked child. -/
def Frame.Side (frame : Frame V) (key : List UInt8) (v : Option V) : Prop :=
  (key = [] ∧ frame.node.iskey = true ∧ frame.node.value = v) ∨
    ∃ i child rest, i ≠ frame.index ∧ frame.node.children[i]? = some child ∧
      key = frame.node.label i ++ rest ∧ Maps child rest v

/-- The keys of a tree that do not lie below the end of the walk. -/
def Outside : List (Frame V) → List UInt8 → Option V → Prop
  | [], _, _ => False
  | frame :: ts, key, v => Outside ts key v ∨ ∃ rest, key = path ts ++ rest ∧ frame.Side rest v

/-- The number of nodes of a tree that do not lie below the end of the walk. -/
def outsideCount : List (Frame V) → Nat
  | [] => 0
  | frame :: ts => outsideCount ts + (1 + ((frame.node.children.eraseIdx frame.index).map nodeCount).sum)

/-- A frame whose node is well formed apart from its marked child. -/
structure FrameOk (frame : Frame V) : Prop where
  fields : Local frame.node
  inside : frame.index < frame.node.children.length
  subtrees : ∀ i child, i ≠ frame.index → frame.node.children[i]? = some child → Valid child
  leaves : ∀ i child, i ≠ frame.index → frame.node.children[i]? = some child → child.children = [] →
    child.iskey = true

def FramesOk (ts : List (Frame V)) : Prop := ∀ frame ∈ ts, FrameOk frame

theorem maps_plugFrame (ok : FrameOk frame) :
    Maps (frame.plug h) key v ↔ frame.Side key v ∨ ∃ rest, key = frame.label ++ rest ∧ Maps h rest v := by
  have marked : (frame.plug h).children[frame.index]? = some h := getElem?_set_self ok.inside
  have other {i : Nat} (different : i ≠ frame.index) :
      (frame.plug h).children[i]? = frame.node.children[i]? := getElem?_set_ne (Ne.symm different)
  rw [maps_iff, Frame.Side, or_assoc]
  refine or_congr Iff.rfl ?_
  constructor
  · rintro ⟨i, child, rest, found, same, maps⟩
    by_cases different : i = frame.index
    · subst different
      rw [marked] at found
      cases found
      exact .inr ⟨rest, same, maps⟩
    · rw [other different] at found
      exact .inl ⟨i, child, rest, different, found, same, maps⟩
  · rintro (⟨i, child, rest, different, found, same, maps⟩ | ⟨rest, same, maps⟩)
    · exact ⟨i, child, rest, by rw [other different, found], same, maps⟩
    · exact ⟨frame.index, h, rest, marked, same, maps⟩

/-- The keys of a tree split into those below the end of the walk and the others. -/
theorem maps_plug (ok : FramesOk ts) :
    Maps (plug ts h) key v ↔ Outside ts key v ∨ ∃ rest, key = path ts ++ rest ∧ Maps h rest v := by
  induction ts generalizing h with
  | nil => simp [plug, Outside, path]
  | cons frame ts ih =>
    obtain ⟨frameOk, ok⟩ := forall_mem_cons.mp ok
    rw [plug, ih ok, Outside, or_assoc]
    refine or_congr Iff.rfl ?_
    constructor
    · rintro ⟨rest, rfl, maps⟩
      rcases (maps_plugFrame frameOk).mp maps with side | ⟨rest', rfl, below⟩
      · exact .inl ⟨rest, rfl, side⟩
      · exact .inr ⟨rest', by rw [path, append_assoc], below⟩
    · rintro (⟨rest, same, side⟩ | ⟨rest, same, maps⟩)
      · exact ⟨rest, same, (maps_plugFrame frameOk).mpr (.inl side)⟩
      · refine ⟨frame.label ++ rest, ?_, (maps_plugFrame frameOk).mpr (.inr ⟨rest, rfl, maps⟩)⟩
        rw [same, path, append_assoc]

theorem side_ne (ok : FrameOk frame) (side : frame.Side key v) : key ≠ frame.label ++ rest := by
  rintro rfl
  rcases side with ⟨empty, _⟩ | ⟨i, child, rest', different, found, same, _⟩
  · exact ok.fields.label_ne_nil ok.inside (append_eq_nil_iff.mp empty).1
  · obtain ⟨inside, _⟩ := List.getElem?_eq_some_iff.mp found
    exact different (ok.fields.label_unique ok.inside inside same).1.symm

/-- No other key starts with the path of the walk. -/
theorem outside_ne (ok : FramesOk ts) (outside : Outside ts key v) (rest : List UInt8) : key ≠ path ts ++ rest := by
  induction ts generalizing key rest with
  | nil => exact outside.elim
  | cons frame ts ih =>
    obtain ⟨frameOk, ok⟩ := forall_mem_cons.mp ok
    rw [path, append_assoc]
    rcases outside with outside | ⟨rest', rfl, side⟩
    · exact ih ok outside _
    · intro same
      exact side_ne frameOk side (append_cancel_left same)

theorem maps_plug_path (ok : FramesOk ts) : Maps (plug ts h) (path ts ++ rest) v ↔ Maps h rest v := by
  rw [maps_plug ok]
  constructor
  · rintro (outside | ⟨rest', same, maps⟩)
    · exact absurd rfl (outside_ne ok outside rest)
    · rwa [append_cancel_left same]
  · exact fun maps => .inr ⟨rest, rfl, maps⟩

theorem nodeCount_plug (ok : FramesOk ts) : nodeCount (plug ts h) = outsideCount ts + nodeCount h := by
  induction ts generalizing h with
  | nil => simp [plug, outsideCount]
  | cons frame ts ih =>
    obtain ⟨frameOk, ok⟩ := forall_mem_cons.mp ok
    rw [plug, ih ok, outsideCount, nodeCount_eq (frame.plug h), Frame.plug, sum_set nodeCount _ frameOk.inside]
    omega

theorem valid_plugFrame (ok : FrameOk frame) (valid : Valid h) (leaf : h.children = [] → h.iskey = true) :
    Valid (frame.plug h) := by
  have fields := ok.fields
  have each : ∀ child ∈ (frame.plug h).children, Valid child ∧ (child.children = [] → child.iskey = true) := by
    intro child member
    obtain ⟨i, found⟩ := mem_iff_getElem?.mp member
    by_cases different : i = frame.index
    · subst different
      rw [Frame.plug, getElem?_set_self ok.inside] at found
      cases found
      exact ⟨valid, leaf⟩
    · rw [Frame.plug, getElem?_set_ne (Ne.symm different)] at found
      exact ⟨ok.subtrees i child different found, ok.leaves i child different found⟩
  refine .mk ⟨fun compressed => ?_, fun plain => ?_, fields.valued⟩ (fun child member => (each child member).1)
    (fun child member => (each child member).2)
  · rw [Frame.plug, length_set]
    exact fields.compressed compressed
  · rw [Frame.plug, length_set]
    exact fields.plain plain

/-- A valid subtree in a valid surrounding gives a valid tree. -/
theorem valid_plug (ok : FramesOk ts) (valid : Valid h) (leaf : ts ≠ [] → h.children = [] → h.iskey = true) :
    Valid (plug ts h) := by
  induction ts generalizing h with
  | nil => exact valid
  | cons frame ts ih =>
    obtain ⟨frameOk, ok⟩ := forall_mem_cons.mp ok
    refine ih ok (valid_plugFrame frameOk valid (leaf (by simp))) ?_
    intro _ empty
    have inside := frameOk.inside
    rw [Frame.plug, ← length_eq_zero_iff, length_set] at empty
    omega

section Single
/-- A node with one child. It is compressed exactly if its edge has more than one byte. -/
structure Single (n child : RaxNode V) : Prop where
  children : n.children = [child]
  filled : n.data ≠ []
  shape : n.iscompr = decide (n.data.length > 1)

variable {child : RaxNode V}

theorem Single.label (single : Single n child) : n.label 0 = n.data := by
  rw [RaxNode.label, single.shape]
  match data : n.data with
  | [] => exact absurd data single.filled
  | [_] => rfl
  | _ :: _ :: _ => simp

theorem Single.maps_iff (single : Single n child) : Maps n key v ↔
    (key = [] ∧ n.iskey = true ∧ n.value = v) ∨ ∃ rest, key = n.data ++ rest ∧ Maps child rest v := by
  rw [Radix.maps_iff]
  refine or_congr Iff.rfl ?_
  constructor
  · rintro ⟨i, other, rest, found, same, maps⟩
    rw [single.children] at found
    obtain ⟨rfl, rfl⟩ : i = 0 ∧ other = child := by
      cases i with
      | zero => exact ⟨rfl, (Option.some.inj found).symm⟩
      | succ i => simp at found
    exact ⟨rest, by rw [same, single.label], maps⟩
  · rintro ⟨rest, same, maps⟩
    exact ⟨0, child, rest, by rw [single.children]; rfl, by rw [same, single.label], maps⟩

theorem Single.count (single : Single n child) : nodeCount n = 1 + nodeCount child := by
  rw [nodeCount_eq, single.children]
  simp

theorem Single.fields (single : Single n child)
    (valued : n.iskey = true → n.isnull = false → n.slot.isSome = true) : Local n where
  compressed long := by
    rw [single.shape, decide_eq_true_iff] at long
    exact ⟨long, by rw [single.children]; rfl⟩
  plain short := by
    have one : n.data.length = 1 := by
      have := length_pos_iff.mpr single.filled
      rw [single.shape, decide_eq_false_iff_not] at short
      omega
    obtain ⟨c, data⟩ := length_eq_one_iff.mp one
    rw [single.children, data]
    exact ⟨rfl, pairwise_singleton _ c⟩
  valued := valued

theorem Single.valid (single : Single n child)
    (valued : n.iskey = true → n.isnull = false → n.slot.isSome = true) (valid : Valid child)
    (leaf : child.children = [] → child.iskey = true) : Valid n := by
  refine .mk (single.fields valued) ?_ ?_ <;> intro other member <;>
    rw [single.children, mem_singleton] at member <;> subst member
  · exact valid
  · exact leaf

theorem Single.frameOk (single : Single n child)
    (valued : n.iskey = true → n.isnull = false → n.slot.isSome = true) : FrameOk ⟨n, 0⟩ := by
  have only {i : Nat} {other : RaxNode V} (different : i ≠ 0) : n.children[i]? ≠ some other := by
    rw [single.children, getElem?_singleton, if_neg different]
    exact nofun
  exact ⟨single.fields valued, by simp [single.children], fun _ _ different found => absurd found (only different),
    fun _ _ different found => absurd found (only different)⟩

theorem Local.single (fields : Local n) (compressed : n.iscompr = true) (found : n.children[0]? = some child) :
    Single n child := by
  obtain ⟨long, one⟩ := fields.compressed compressed
  obtain ⟨only, children⟩ := length_eq_one_iff.mp one
  rw [children] at found
  refine ⟨by rw [children, ← Option.some.inj found], ?_, by rw [compressed]; exact (decide_eq_true long).symm⟩
  intro empty
  simp [empty] at long
end Single
end Redis.Radix

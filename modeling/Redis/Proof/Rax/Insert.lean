import Redis.Proof.Rax.Walk

namespace Redis.Radix
open Foundation List
variable {V : Type} {h next : RaxNode V} {ts ts' : List (Frame V)} {key bytes : List UInt8} {v data : Option V}
  {n n' : Nat}

theorem value_setData : (raxSetData h data).value = data := by
  cases data <;> rfl

theorem isKey_setData : (raxSetData h data).iskey = true := by
  cases data <;> rfl

theorem children_setData : (raxSetData h data).children = h.children := by
  cases data <;> rfl

theorem data_setData : (raxSetData h data).data = h.data := by
  cases data <;> rfl

theorem iscompr_setData : (raxSetData h data).iscompr = h.iscompr := by
  cases data <;> rfl

theorem label_setData (i : Nat) : (raxSetData h data).label i = h.label i := by
  rw [RaxNode.label, RaxNode.label, data_setData, iscompr_setData]

theorem valued_setData (null : (raxSetData h data).isnull = false) : (raxSetData h data).slot.isSome = true := by
  cases data with
  | none => cases null
  | some value => rfl

theorem fields_setData (fields : Local h) : Local (raxSetData h data) := by
  refine ⟨?_, ?_, fun _ => valued_setData⟩ <;> simp only [children_setData, data_setData, iscompr_setData]
  · exact fields.compressed
  · exact fields.plain

theorem valid_setData (valid : Valid h) : Valid (raxSetData h data) := by
  refine .mk (fields_setData valid.fields) ?_ ?_ <;> rw [children_setData]
  · exact fun _ => valid.child
  · exact fun _ => valid.leaf

theorem nodeCount_setData : nodeCount (raxSetData h data) = nodeCount h := by
  rw [nodeCount_eq, nodeCount_eq, children_setData]

theorem maps_setData (fields : Local h) :
    Maps (raxSetData h data) key v ↔ (key = [] ∧ v = data) ∨ (key ≠ [] ∧ Maps h key v) := by
  by_cases empty : key = []
  · subst empty
    rw [maps_nil_iff (fields_setData fields), value_setData]
    simp [isKey_setData, eq_comm]
  · rw [maps_iff, maps_iff (n := h)]
    simp [empty, children_setData, label_setData]

/-- The second tree holds a value for the key, and the other keys as before. -/
def Overwrites (head head' : RaxNode V) (key : List UInt8) (data : Option V) : Prop :=
  ∀ other v, Maps head' other v ↔ (other = key ∧ v = data) ∨ (other ≠ key ∧ Maps head other v)

theorem overwrites_plug (frames : FramesOk ts) (fields : Local h) :
    Overwrites (plug ts h) (plug ts (raxSetData h data)) (path ts) data := by
  intro other v
  rw [maps_plug frames, maps_plug frames]
  simp only [maps_setData fields]
  constructor
  · rintro (outside | ⟨rest, rfl, ⟨rfl, rfl⟩ | ⟨some, maps⟩⟩)
    · refine .inr ⟨?_, .inl outside⟩
      simpa using outside_ne frames outside []
    · exact .inl ⟨append_nil _, rfl⟩
    · exact .inr ⟨by simpa using some, .inr ⟨rest, rfl, maps⟩⟩
  · rintro (⟨rfl, rfl⟩ | ⟨different, outside | ⟨rest, rfl, maps⟩⟩)
    · exact .inr ⟨[], (append_nil _).symm, .inl ⟨rfl, rfl⟩⟩
    · exact .inl outside
    · exact .inr ⟨rest, rfl, .inr ⟨by simpa using different, maps⟩⟩

theorem valid_new : Valid (raxNewNode : RaxNode V) :=
  .mk ⟨nofun, fun _ => ⟨rfl, .nil⟩, nofun⟩ (fun _ member => by cases member) (fun _ member => by cases member)

/-- A childless node is added below a new edge. -/
structure Grown (h newh : RaxNode V) (pos : Nat) (label : List UInt8) : Prop where
  frame : FrameOk ⟨newh, pos⟩
  label : newh.label pos = label
  fresh : newh.children[pos]? = some raxNewNode
  maps : ∀ key v, Maps newh key v ↔ Maps h key v
  count : nodeCount newh = nodeCount h + 1

theorem pairwise_insert {data : List UInt8} (sorted : data.Pairwise (· < ·)) {c : UInt8} (absent : c ∉ data) :
    (data.take (data.findIdx (· > c)) ++ c :: data.drop (data.findIdx (· > c))).Pairwise (· < ·) := by
  induction data with
  | nil => exact pairwise_singleton _ c
  | cons d data ih =>
    obtain ⟨least, sorted'⟩ := pairwise_cons.mp sorted
    rw [findIdx_cons]
    by_cases greater : d > c
    · simp only [greater]
      refine .cons ?_ sorted
      intro e member
      rcases mem_cons.mp member with rfl | member
      · exact greater
      · exact UInt8.lt_trans greater (least e member)
    · simp only [greater, decide_false, cond_false, take_succ_cons, cons_append]
      refine .cons ?_ (ih sorted' (fun member => absent (mem_cons_of_mem _ member)))
      intro e member
      rw [mem_append, mem_cons] at member
      have different : d ≠ c := fun same => absent (by simp [same])
      rcases member with member | rfl | member
      · exact least e (mem_of_mem_take member)
      · exact UInt8.lt_of_le_of_ne (UInt8.not_lt.mp greater) different
      · exact least e (mem_of_mem_drop member)

theorem maps_plain_iff (fields : Local h) (plain : h.iscompr = false) :
    Maps h key v ↔ (key = [] ∧ h.iskey = true ∧ h.value = v) ∨
      ∃ c child rest, (c, child) ∈ h.data.zip h.children ∧ key = c :: rest ∧ Maps child rest v := by
  rw [maps_iff]
  refine or_congr Iff.rfl ?_
  constructor
  · rintro ⟨i, child, rest, found, rfl, maps⟩
    obtain ⟨inside, _⟩ := List.getElem?_eq_some_iff.mp found
    obtain ⟨c, letter, label⟩ := fields.label_plain plain inside
    refine ⟨c, child, rest, ?_, by rw [label]; rfl, maps⟩
    exact mem_of_getElem? (getElem?_zip_eq_some.mpr ⟨letter, found⟩)
  · rintro ⟨c, child, rest, member, rfl, maps⟩
    obtain ⟨i, both⟩ := mem_iff_getElem?.mp member
    obtain ⟨letter, found⟩ := getElem?_zip_eq_some.mp both
    refine ⟨i, child, rest, found, ?_, maps⟩
    rw [RaxNode.label, plain, letter]
    rfl

theorem raxAddChild_spec (valid : Valid h) (plain : h.iscompr = false) {c : UInt8} (absent : c ∉ h.data) :
    ∃ newh pos, raxAddChild h c = .ok (newh, pos) ∧ Grown h newh pos [c] := by
  obtain ⟨same, sorted⟩ := valid.fields.plain plain
  have within : h.data.findIdx (· > c) ≤ h.data.length := findIdx_le_length
  refine ⟨_, _, by rw [raxAddChild, require_of plain]; rfl, ?_⟩
  generalize place : h.data.findIdx (· > c) = pos at within
  have ordered := pairwise_insert sorted absent
  rw [place] at ordered
  have fields : Local { h with
      data := h.data.take pos ++ c :: h.data.drop pos
      children := h.children.take pos ++ raxNewNode :: h.children.drop pos } :=
    ⟨fun compressed => by simp [plain] at compressed, fun _ => ⟨by simp; omega, ordered⟩, valid.fields.valued⟩
  have front : (h.children.take pos).length = pos := by rw [length_take]; omega
  have letters : (h.data.take pos).length = pos := by rw [length_take]; omega
  have beside {i : Nat} {child : RaxNode V} (different : i ≠ pos)
      (found : (h.children.take pos ++ raxNewNode :: h.children.drop pos)[i]? = some child) :
      child ∈ h.children := by
    rcases mem_append.mp (mem_of_getElem? found) with member | member
    · exact mem_of_mem_take member
    · rcases Nat.lt_or_gt_of_ne different with before | after
      · rw [getElem?_append_left (by omega)] at found
        exact mem_of_mem_take (mem_of_getElem? found)
      · rw [getElem?_append_right (by omega), front,
          show i - pos = i - pos - 1 + 1 by omega, getElem?_cons_succ] at found
        exact mem_of_mem_drop (mem_of_getElem? found)
  refine ⟨⟨fields, by simp; omega, ?_, ?_⟩, ?_, ?_, ?_, ?_⟩
  · exact fun i child different found => valid.child (beside different found)
  · exact fun i child different found => valid.leaf (beside different found)
  · rw [RaxNode.label, plain, getElem?_append_right (by omega), letters, Nat.sub_self]
    rfl
  · rw [getElem?_append_right (by omega), front, Nat.sub_self]
    rfl
  · intro key v
    have pairs : h.data.zip h.children =
        (h.data.take pos).zip (h.children.take pos) ++ (h.data.drop pos).zip (h.children.drop pos) := by
      rw [← zip_append (by omega), take_append_drop, take_append_drop]
    rw [maps_plain_iff fields plain, maps_plain_iff valid.fields plain, pairs]
    refine or_congr Iff.rfl ?_
    rw [zip_append (by omega), zip_cons_cons]
    simp only [mem_append, mem_cons]
    constructor
    · rintro ⟨d, child, rest, member | ⟨rfl, rfl⟩ | member, same, maps⟩
      · exact ⟨d, child, rest, .inl member, same, maps⟩
      · exact absurd maps not_maps_new
      · exact ⟨d, child, rest, .inr member, same, maps⟩
    · rintro ⟨d, child, rest, member | member, same, maps⟩
      · exact ⟨d, child, rest, .inl member, same, maps⟩
      · exact ⟨d, child, rest, .inr (.inr member), same, maps⟩
  · rw [nodeCount_eq, nodeCount_eq h]
    conv_rhs => rw [← take_append_drop pos h.children]
    have one : nodeCount (raxNewNode : RaxNode V) = 1 := rfl
    simp only [map_append, map_cons, sum_append, sum_cons]
    omega

theorem raxCompressNode_spec (valid : Valid h) (plain : h.iscompr = false) (bare : h.data = [])
    (long : 1 < bytes.length) : ∃ newh, raxCompressNode h bytes = .ok newh ∧ Grown h newh 0 bytes := by
  have none : h.children = [] := by
    rw [← length_eq_zero_iff, (valid.fields.plain plain).1, bare, length_nil]
  have single (newh : RaxNode V) (children : newh.children = [raxNewNode]) (data : newh.data = bytes)
      (compressed : newh.iscompr = true) (iskey : newh.iskey = h.iskey)
      (value : h.iskey = true → newh.value = h.value)
      (valued : newh.iskey = true → newh.isnull = false → newh.slot.isSome = true) : Grown h newh 0 bytes := by
    have shape : Single newh raxNewNode :=
      ⟨children, by rintro empty; simp [← data, empty] at long, by rw [compressed, data]; simpa using long⟩
    refine ⟨shape.frameOk valued, by rw [shape.label, data], by rw [children]; rfl, ?_, ?_⟩
    · intro key v
      rw [shape.maps_iff, maps_iff (n := h), none, iskey]
      simp only [not_maps_new, and_false, exists_false, or_false, getElem?_nil, reduceCtorEq, false_and]
      refine and_congr_right fun _ => and_congr_right fun iskey => ?_
      rw [value iskey]
    · rw [shape.count, nodeCount_eq h, none]
      rfl
  rw [raxCompressNode, require_of ⟨by rw [RaxNode.size, bare]; rfl, plain⟩, ok_bind]
  cases iskey : h.iskey with
  | true =>
    rw [raxGetData_eq valid.fields iskey]
    refine ⟨_, rfl, single _ children_setData data_setData iscompr_setData (isKey_setData.trans iskey.symm)
      (fun _ => value_setData) (fun _ => valued_setData)⟩
  | false => exact ⟨_, rfl, single _ rfl rfl rfl iskey.symm (fun _ => rfl) nofun⟩

/-- The two trees have the same keys, and the node counter follows the change. -/
structure Reshaped (ts : List (Frame V)) (h : RaxNode V) (n : Nat) (ts' : List (Frame V)) (h' : RaxNode V)
    (n' : Nat) : Prop where
  frames : FramesOk ts'
  valid : Valid h'
  maps : ∀ key v, Maps (plug ts' h') key v ↔ Maps (plug ts h) key v
  count : nodeCount (plug ts' h') + n = nodeCount (plug ts h) + n'

theorem Reshaped.refl (frames : FramesOk ts) (valid : Valid h) : Reshaped ts h n ts h n :=
  ⟨frames, valid, fun _ _ => Iff.rfl, rfl⟩

theorem Reshaped.trans {ts'' : List (Frame V)} {h' h'' : RaxNode V} {n'' : Nat}
    (first : Reshaped ts h n ts' h' n') (second : Reshaped ts' h' n' ts'' h'' n'') :
    Reshaped ts h n ts'' h'' n'' := by
  refine ⟨second.frames, second.valid, fun key v => (second.maps key v).trans (first.maps key v), ?_⟩
  have := first.count
  have := second.count
  omega

/-- The subtree at the end of the walk is replaced by one with the same keys. -/
theorem Reshaped.local {h' : RaxNode V} (frames : FramesOk ts) (valid : Valid h')
    (maps : ∀ key v, Maps h' key v ↔ Maps h key v) (count : nodeCount h' + n = nodeCount h + n') :
    Reshaped ts h n ts h' n' := by
  refine ⟨frames, valid, fun key v => ?_, ?_⟩
  · rw [maps_plug frames, maps_plug frames]
    simp only [maps]
  · rw [nodeCount_plug frames, nodeCount_plug frames]
    omega

theorem Reshaped.down {frame : Frame V} {child : RaxNode V} (frames : FramesOk ts) (ok : FrameOk frame)
    (valid : Valid child) (maps : ∀ key v, Maps (frame.plug child) key v ↔ Maps h key v)
    (count : nodeCount (frame.plug child) + n = nodeCount h + n') :
    Reshaped ts h n (frame :: ts) child n' := by
  refine ⟨framesOk_cons ok frames, valid, fun key v => ?_, ?_⟩
  · rw [plug, maps_plug frames, maps_plug frames]
    simp only [maps]
  · rw [plug, nodeCount_plug frames, nodeCount_plug frames]
    omega

theorem Grown.reshaped {newh : RaxNode V} {pos : Nat} (grown : Grown h newh pos bytes) (frames : FramesOk ts) :
    Reshaped ts h n (⟨newh, pos⟩ :: ts) raxNewNode (n + 1) := by
  have self := plug_self grown.fresh
  exact .down frames grown.frame valid_new (by rw [self]; exact grown.maps) (by rw [self, grown.count]; omega)

/-- The loop adds one path of nodes, and its last node has no key yet. -/
theorem insertLoop_spec {fuel : Nat} (rest : List UInt8) (frames : FramesOk ts) (valid : Valid h)
    (plain : h.iscompr = false) (absent : ∀ c ∈ rest.head?, c ∉ h.data) (enough : rest.length ≤ fuel) :
    ∃ last ts' n', insertLoop fuel rest h ts n = .ok (last, ts', n') ∧ Reshaped ts h n ts' last n' ∧
      path ts' = path ts ++ rest ∧ last = if rest = [] then h else raxNewNode := by
  induction fuel generalizing rest h ts n with
  | zero =>
    obtain rfl : rest = [] := length_eq_zero_iff.mp (by omega)
    exact ⟨h, ts, n, rfl, .refl frames valid, by simp, rfl⟩
  | succ fuel ih =>
    cases rest with
    | nil => exact ⟨h, ts, n, rfl, .refl frames valid, by simp, rfl⟩
    | cons c cs =>
      -- one added edge takes the loop to a new node
      have step {newh : RaxNode V} {pos : Nat} {label rest : List UInt8} (grown : Grown h newh pos label)
          (split : label ++ rest = c :: cs) (some : label ≠ []) :
          ∃ last ts' n', insertLoop fuel rest raxNewNode (⟨newh, pos⟩ :: ts) (n + 1) = .ok (last, ts', n') ∧
            Reshaped ts h n ts' last n' ∧ path ts' = path ts ++ (c :: cs) ∧ last = raxNewNode := by
        have reshaped := grown.reshaped (n := n) frames
        have shorter : rest.length ≤ fuel := by
          have := congrArg List.length split
          have := length_pos_iff.mpr some
          rw [length_append, length_cons] at *
          omega
        obtain ⟨last, ts', n', looped, reshaped', walked, isNew⟩ :=
          ih (n := n + 1) rest reshaped.frames valid_new rfl (fun _ _ => not_mem_nil) shorter
        refine ⟨last, ts', n', looped, reshaped.trans reshaped', ?_, by simpa using isNew⟩
        rw [walked, path, Frame.label, grown.label, append_assoc, split]
      rw [insertLoop]
      by_cases compress : h.size = 0 ∧ cs.length + 1 > 1
      · have bare : h.data = [] := length_eq_zero_iff.mp compress.1
        have room : 1 < raxNodeMaxSize := by decide
        have long : 1 < ((c :: cs).take (min (cs.length + 1) raxNodeMaxSize)).length := by
          rw [length_take, length_cons]
          omega
        obtain ⟨newh, compressed, grown⟩ := raxCompressNode_spec valid plain bare long
        rw [if_pos compress]
        dsimp only
        rw [compressed, ok_bind, readCell_of grown.fresh]
        exact step grown (take_append_drop _ _) (length_pos_iff.mp (by omega))
      · obtain ⟨newh, pos, added, grown⟩ := raxAddChild_spec valid plain (absent c rfl)
        rw [if_neg compress, added, ok_bind]
        dsimp only
        rw [readCell_of grown.fresh]
        exact step grown rfl (by simp)

/-- The key of a node moves to the node that takes its place. -/
def withKey (h n : RaxNode V) : RaxNode V := if h.iskey then raxSetData n h.value else n

theorem withKey_eq (fields : Local h) (n : RaxNode V) :
    (if h.iskey = true then do return raxSetData n (← raxGetData h) else return n) =
      (.ok (withKey h n) : Checked (RaxNode V)) := by
  rw [withKey]
  cases iskey : h.iskey with
  | true =>
    rw [raxGetData_eq fields iskey]
    rfl
  | false => rfl

theorem withKey_data (n : RaxNode V) : (withKey h n).data = n.data := by
  rw [withKey]
  split
  · exact data_setData
  · rfl

theorem withKey_children (n : RaxNode V) : (withKey h n).children = n.children := by
  rw [withKey]
  split
  · exact children_setData
  · rfl

theorem withKey_iscompr (n : RaxNode V) : (withKey h n).iscompr = n.iscompr := by
  rw [withKey]
  split
  · exact iscompr_setData
  · rfl

theorem withKey_single {n child : RaxNode V} (single : Single n child) : Single (withKey h n) child :=
  ⟨by rw [withKey_children, single.children], by rw [withKey_data]; exact single.filled,
    by rw [withKey_iscompr, withKey_data]; exact single.shape⟩

theorem withKey_valued {n : RaxNode V} (bare : h.iskey = false → n.iskey = false) :
    (withKey h n).iskey = true → (withKey h n).isnull = false → (withKey h n).slot.isSome = true := by
  rw [withKey]
  cases iskey : h.iskey with
  | true => exact fun _ => valued_setData
  | false => simp [bare iskey]

theorem withKey_maps {n : RaxNode V} (bare : h.iskey = false → n.iskey = false) :
    ((withKey h n).iskey = true ∧ (withKey h n).value = v) ↔ (h.iskey = true ∧ h.value = v) := by
  rw [withKey]
  cases iskey : h.iskey with
  | true => simp [isKey_setData, value_setData]
  | false => simp [bare iskey]

theorem postfixNode_single (filled : bytes ≠ []) : Single (postfixNode bytes next) next := ⟨rfl, filled, rfl⟩

theorem maps_postfixNode (filled : bytes ≠ []) :
    Maps (postfixNode bytes next) key v ↔ ∃ rest, key = bytes ++ rest ∧ Maps next rest v := by
  rw [(postfixNode_single filled).maps_iff]
  simp [postfixNode]

theorem trimNode_single {j : Nat} (positive : 0 < j) (inside : j ≤ h.data.length) :
    Single (trimNode h j next) next := by
  have length : (h.data.take j).length = j := by rw [length_take]; omega
  refine ⟨rfl, length_pos_iff.mp (by simp only [trimNode]; omega), ?_⟩
  simp only [trimNode, length]

theorem splitNode_spec {j : Nat} {d : UInt8} (frames : FramesOk ts) (valid : Valid h)
    (compressed : h.iscompr = true) (letter : h.data[j]? = some d) :
    ∃ split ts' n', splitNode h j ts n = .ok (split, ts', n') ∧ Reshaped ts h n ts' split n' ∧
      path ts' = path ts ++ h.data.take j ∧ split.iscompr = false ∧ split.data = [d] := by
  obtain ⟨inside, stored⟩ := List.getElem?_eq_some_iff.mp letter
  have one := (valid.fields.compressed compressed).2
  obtain ⟨next, found⟩ : ∃ next, h.children[0]? = some next := ⟨_, getElem?_eq_getElem (by omega)⟩
  have whole := valid.fields.single compressed found
  have member := mem_of_getElem? found
  have bytes : h.data = h.data.take j ++ d :: h.data.drop (j + 1) := by
    rw [← stored, ← drop_eq_getElem_cons inside, take_append_drop]
  -- the child of the split node holds the bytes after the mismatch
  obtain ⟨child, n₁, built, childValid, childLeaf, childMaps, childCount⟩ : ∃ child n₁,
      (if h.size - j - 1 ≠ 0 then (postfixNode (h.data.drop (j + 1)) next, n + 1) else (next, n)) = (child, n₁) ∧
      Valid child ∧ (child.children = [] → child.iskey = true) ∧
      (∀ key v, Maps child key v ↔ ∃ rest, key = h.data.drop (j + 1) ++ rest ∧ Maps next rest v) ∧
      nodeCount child + n = nodeCount next + n₁ := by
    by_cases some : h.size - j - 1 ≠ 0
    · rw [RaxNode.size] at some
      have filled : h.data.drop (j + 1) ≠ [] := length_pos_iff.mp (by rw [length_drop]; omega)
      have single : Single (postfixNode (h.data.drop (j + 1)) next) next := postfixNode_single filled
      exact ⟨_, _, if_pos some, single.valid nofun (valid.child member) (valid.leaf member), nofun,
        fun _ _ => maps_postfixNode filled, by rw [single.count]; omega⟩
    · refine ⟨_, _, if_neg some, valid.child member, valid.leaf member, fun key v => ?_, rfl⟩
      rw [RaxNode.size] at some
      rw [drop_eq_nil_of_le (by omega)]
      simp
  have split : Single (⟨false, false, false, [d], [child], none⟩ : RaxNode V) child := ⟨rfl, by simp, rfl⟩
  have splitMaps (key : List UInt8) (v : Option V) : (∃ rest, key = [d] ++ rest ∧ Maps child rest v) ↔
      ∃ rest, key = d :: h.data.drop (j + 1) ++ rest ∧ Maps next rest v := by
    simp only [childMaps]
    constructor
    · rintro ⟨_, rfl, rest, rfl, maps⟩
      exact ⟨rest, rfl, maps⟩
    · rintro ⟨rest, rfl, maps⟩
      exact ⟨_, rfl, rest, rfl, maps⟩
  rw [splitNode, readCell_of found, ok_bind, readCell_of letter, ok_bind]
  dsimp only
  rw [built]
  by_cases first : j = 0
  · subst first
    rw [take_zero, nil_append] at bytes
    have single := withKey_single (h := h) split
    rw [withKey_eq valid.fields]
    refine ⟨_, _, _, rfl, .local frames (single.valid (withKey_valued (fun _ => rfl)) childValid childLeaf) ?_ ?_, by simp, ?_,
      withKey_data _⟩
    · intro key v
      rw [single.maps_iff, whole.maps_iff, withKey_maps (fun _ => rfl), withKey_data]
      refine or_congr Iff.rfl ((splitMaps key v).trans ?_)
      rw [← bytes]
    · rw [single.count, whole.count]
      omega
    · rw [single.shape, withKey_data]
      rfl
  · have single (node : RaxNode V) : Single (trimNode h j node) node :=
      trimNode_single (Nat.pos_of_ne_zero first) inside.le
    rw [if_neg first]
    refine ⟨_, _, _, rfl, .down frames ((single _).frameOk valid.fields.valued)
      (split.valid nofun childValid childLeaf) ?_ ?_, ?_, rfl, rfl⟩ <;> try rw [plug_self rfl]
    · intro key v
      rw [(single _).maps_iff, whole.maps_iff]
      refine or_congr Iff.rfl ?_
      simp only [split.maps_iff, Bool.false_eq_true, false_and, and_false, false_or, splitMaps]
      constructor
      · rintro ⟨_, rfl, rest, rfl, maps⟩
        exact ⟨rest, by rw [← append_assoc]; exact congrArg (· ++ rest) bytes.symm, maps⟩
      · rintro ⟨rest, rfl, maps⟩
        refine ⟨_, ?_, rest, rfl, maps⟩
        rw [← append_assoc]
        exact congrArg (· ++ rest) bytes
    · rw [(single _).count, split.count, whole.count]
      omega
    · rw [path, Frame.label, (single _).label]
      rfl

theorem splitKey_spec {j : Nat} (frames : FramesOk ts) (valid : Valid h) (compressed : h.iscompr = true)
    (positive : 0 < j) (short : j < h.data.length) (data : Option V) :
    ∃ frame last, splitKey h j data = .ok (frame.plug (raxSetData last data)) ∧
      Reshaped ts h n (frame :: ts) last (n + 1) ∧ path (frame :: ts) = path ts ++ h.data.take j := by
  have one := (valid.fields.compressed compressed).2
  obtain ⟨next, found⟩ : ∃ next, h.children[0]? = some next := ⟨_, getElem?_eq_getElem (by omega)⟩
  have whole := valid.fields.single compressed found
  have member := mem_of_getElem? found
  have filled : h.data.drop j ≠ [] := length_pos_iff.mp (by rw [length_drop]; omega)
  have last : Single (postfixNode (h.data.drop j) next) next := postfixNode_single filled
  have trimmed (node : RaxNode V) : Single { trimNode h j node with iskey := false, isnull := false } node := by
    have single : Single (trimNode h j node) node := trimNode_single positive short.le
    exact ⟨single.children, single.filled, single.shape⟩
  have single := withKey_single (h := h) (trimmed (postfixNode (h.data.drop j) next))
  refine ⟨⟨withKey h { trimNode h j (postfixNode (h.data.drop j) next) with iskey := false, isnull := false }, 0⟩,
    postfixNode (h.data.drop j) next, ?_, .down frames (single.frameOk (withKey_valued (fun _ => rfl)))
    (last.valid nofun (valid.child member) (valid.leaf member)) ?_ ?_, ?_⟩
  · rw [splitKey, readCell_of found, ok_bind]
    rw [withKey_eq valid.fields, withKey, withKey]
    split
    · cases h.value <;> rfl
    · rfl
  · intro key v
    rw [plug_self (by rw [single.children]; rfl), single.maps_iff, whole.maps_iff, withKey_maps (fun _ => rfl), withKey_data]
    refine or_congr Iff.rfl ?_
    simp only [maps_postfixNode filled]
    constructor
    · rintro ⟨_, rfl, rest, rfl, maps⟩
      exact ⟨rest, by rw [← append_assoc, trimNode, take_append_drop], maps⟩
    · rintro ⟨rest, rfl, maps⟩
      exact ⟨_, by rw [← append_assoc, trimNode, take_append_drop], rest, rfl, maps⟩
  · rw [plug_self (by rw [single.children]; rfl), single.count, last.count, whole.count]
    omega
  · rw [path, Frame.label, single.label, withKey_data]
    rfl

theorem Reshaped.setData {head last : RaxNode V} (reshaped : Reshaped ts h n ts' last n')
    (plugged : plug ts h = head) (counted : n = nodeCount head)
    (data : Option V) : Valid (plug ts' (raxSetData last data)) ∧ n' = nodeCount (plug ts' (raxSetData last data)) ∧
      Overwrites head (plug ts' (raxSetData last data)) (path ts') data := by
  refine ⟨valid_plug reshaped.frames (valid_setData reshaped.valid) (fun _ _ => isKey_setData), ?_, fun other v => ?_⟩
  · have count := reshaped.count
    rw [nodeCount_plug reshaped.frames] at count ⊢
    rw [plugged] at count
    rw [nodeCount_setData]
    omega
  · rw [overwrites_plug reshaped.frames reshaped.valid.fields, reshaped.maps, plugged]

theorem raxGenericInsert_spec {rax : Rax V} (valid : Valid rax.head) (counted : rax.numnodes = nodeCount rax.head)
    (key : List UInt8) (data : Option V) (overwrite : Bool) :
    ∃ rax' result, raxGenericInsert rax key data overwrite = .ok (rax', result) ∧
      Valid rax'.head ∧ rax'.numnodes = nodeCount rax'.head ∧
      ((∃ old, Maps rax.head key old ∧ result = ⟨false, some old⟩ ∧ rax'.numele = rax.numele ∧
          if overwrite then Overwrites rax.head rax'.head key data else rax'.head = rax.head) ∨
        ((∀ v, ¬ Maps rax.head key v) ∧ result = ⟨true, none⟩ ∧ rax'.numele = rax.numele + 1 ∧
          Overwrites rax.head rax'.head key data)) := by
  obtain ⟨⟨rest, h, j, ts⟩, walked, arrived⟩ := raxLowWalk_head valid key
  have maps (v : Option V) := arrived.maps_iff (v := v)
  obtain ⟨plugged, frames, stopValid, leaf, same, stop⟩ := arrived
  dsimp only at plugged frames stopValid leaf same stop maps
  rw [raxGenericInsert, walked, ok_bind]
  dsimp only
  have here := Reshaped.refl (n := rax.numnodes) frames stopValid
  cases stop with
  | node =>
    have same : key = path ts := by simpa using same
    rw [if_pos ⟨rfl, .inr rfl⟩]
    cases iskey : h.iskey with
    | true =>
      rw [raxGetData_eq stopValid.fields iskey]
      have present := (maps h.value).mpr ⟨rfl, rfl, iskey, rfl⟩
      cases overwrite with
      | true =>
        obtain ⟨valid', counted', overwrites⟩ := here.setData plugged counted data
        exact ⟨_, _, rfl, valid', counted', .inl ⟨_, present, rfl, rfl, same ▸ overwrites⟩⟩
      | false =>
        refine ⟨_, _, rfl, ?_, ?_, .inl ⟨_, present, rfl, rfl, ?_⟩⟩ <;> simp only [Bool.false_eq_true, if_false, plugged]
        · exact valid
        · exact counted
    | false =>
      obtain ⟨valid', counted', overwrites⟩ := here.setData plugged counted data
      refine ⟨_, _, rfl, valid', counted', .inr ⟨fun v present => ?_, rfl, rfl, same ▸ overwrites⟩⟩
      simp [maps, iskey] at present
  | inside compressed positive short =>
    obtain ⟨frame, last, split, reshaped, walked'⟩ :=
      splitKey_spec (n := rax.numnodes) frames stopValid compressed positive short data
    obtain ⟨valid', counted', overwrites⟩ := reshaped.setData plugged counted data
    have same : key = path (frame :: ts) := by rw [walked', same, append_nil]
    rw [if_neg (by simp [compressed, positive.ne']), if_pos ⟨compressed, rfl⟩, split]
    refine ⟨_, _, rfl, valid', counted', .inr ⟨fun v present => ?_, rfl, rfl, same ▸ overwrites⟩⟩
    simp [maps, positive.ne'] at present
  | @mismatch j c d cs compressed letter different =>
    obtain ⟨split, ts₁, n₁, splits, reshaped, walked₁, plain, letters⟩ :=
      splitNode_spec (n := rax.numnodes) frames stopValid compressed letter
    obtain ⟨last, ts', n', looped, reshaped', walked', isNew⟩ :=
      insertLoop_spec (n := n₁) (c :: cs) reshaped.frames reshaped.valid plain
        (by simpa [letters, eq_comm] using different) le_rfl
    obtain ⟨valid', counted', overwrites⟩ := (reshaped.trans reshaped').setData plugged counted data
    have same : key = path ts' := by rw [walked', walked₁, same, append_assoc]
    rw [if_neg (by simp), if_neg (by simp), if_pos compressed, splits, ok_bind]
    rw [looped]
    refine ⟨_, _, rfl, valid', counted', .inr ⟨fun v present => ?_, rfl, ?_, same ▸ overwrites⟩⟩
    · simp [maps] at present
    · rw [isNew]
      rfl
  | @missing c cs plain absent =>
    obtain ⟨last, ts', n', looped, reshaped', walked', isNew⟩ :=
      insertLoop_spec (n := rax.numnodes) (c :: cs) frames stopValid plain (by simpa using absent) le_rfl
    obtain ⟨valid', counted', overwrites⟩ := reshaped'.setData plugged counted data
    have same : key = path ts' := by rw [walked', same, take_zero, nil_append]
    rw [if_neg (by simp), if_neg (by simp), if_neg (by simp [plain])]
    dsimp only [pure, Except.pure]
    rw [ok_bind, looped]
    refine ⟨_, _, rfl, valid', counted', .inr ⟨fun v present => ?_, rfl, ?_, same ▸ overwrites⟩⟩
    · simp [maps] at present
    · rw [isNew]
      rfl

end Redis.Radix

import Redis.Foundation.EntryList
import Redis.Proof.Rax.Remove

namespace Redis.Radix
open Foundation
variable {V : Type} {rax : Rax V}

/-- A finite map from byte strings. A stored `NULL` is the value `none`. -/
abbrev KeyMap (V : Type) := Finmap fun _ : List UInt8 => Option V

def keyStep (map : KeyMap V) : RaxOp V → KeyMap V × RaxOut V
  | .insert key data => (map.insert key.1 data, .insert ⟨(map.lookup key.1).isNone, map.lookup key.1⟩)
  | .tryInsert key data =>
    match map.lookup key.1 with
    | none => (map.insert key.1 data, .insert ⟨true, none⟩)
    | some old => (map, .insert ⟨false, some old⟩)
  | .remove key => (map.erase key.1, .remove ⟨(map.lookup key.1).isSome, map.lookup key.1⟩)
  | .find key => (map, .find (map.lookup key.1))

/-- A valid tree stores a finite map. -/
structure Models (rax : Rax V) (map : KeyMap V) : Prop where
  valid : Valid rax.head
  counted : rax.numnodes = nodeCount rax.head
  maps : ∀ key v, map.lookup key = some v ↔ Maps rax.head key v
  size : rax.numele = map.keys.card
  bounded : ∀ key v, Maps rax.head key v → key.length ≤ raxNodeMaxSize

theorem models_raxNew : Models (raxNew : Rax V) ∅ :=
  ⟨valid_new, rfl, fun _ _ => ⟨by simp, fun maps => absurd maps not_maps_new⟩, rfl,
    fun _ _ maps => absurd maps not_maps_new⟩

variable {map : KeyMap V}

theorem mem_keys_of_lookup {key : List UInt8} {v : Option V} (found : map.lookup key = some v) : key ∈ map.keys := by
  rw [Finmap.mem_keys, Finmap.mem_iff]
  exact ⟨v, found⟩

variable (models : Models rax map)
include models
theorem Models.absent {key : List UInt8} (missing : ∀ v, ¬ Maps rax.head key v) : map.lookup key = none := by
  cases found : map.lookup key with
  | none => rfl
  | some v => exact absurd ((models.maps key v).mp found) (missing v)

theorem Models.card_insert {key : List UInt8} (missing : ∀ v, ¬ Maps rax.head key v) :
    rax.numele + 1 = (insert key map.keys).card := by
  rw [models.size, Finset.card_insert_of_notMem]
  rw [Finmap.mem_keys, ← Finmap.lookup_eq_none]
  exact models.absent missing

theorem Models.overwrite {rax' : Rax V} {key : RaxKey} {data : Option V}
    (valid : Valid rax'.head) (counted : rax'.numnodes = nodeCount rax'.head)
    (overwrites : Overwrites rax.head rax'.head key.1 data)
    (size : rax'.numele = (insert key.1 map.keys).card) : Models rax' (map.insert key.1 data) := by
  refine ⟨valid, counted, fun other v => ?_, by rw [size, keys_insert], fun other v maps => ?_⟩
  · rw [overwrites]
    by_cases same : other = key.1
    · subst same
      simp [eq_comm]
    · rw [Finmap.lookup_insert_of_ne _ same, models.maps]
      simp [same]
  · rcases (overwrites other v).mp maps with ⟨rfl, _⟩ | ⟨_, maps⟩
    · exact key.2
    · exact models.bounded other v maps

theorem Models.erase {rax' : Rax V} {key : List UInt8} (valid : Valid rax'.head)
    (counted : rax'.numnodes = nodeCount rax'.head) (removes : Removes rax.head rax'.head key)
    (size : rax'.numele = (map.keys.erase key).card) : Models rax' (map.erase key) := by
  refine ⟨valid, counted, fun other v => ?_, by rw [size, Finmap.keys_erase], fun other v maps => ?_⟩
  · rw [removes]
    by_cases same : other = key
    · subst same
      simp [Finmap.lookup_erase]
    · rw [Finmap.lookup_erase_ne same, models.maps]
      simp [same]
  · exact models.bounded other v ((removes other v).mp maps).2

theorem raxFind_models (key : List UInt8) : raxFind rax key = .ok (map.lookup key) := by
  obtain ⟨result, found, spec⟩ := raxFind_spec models.valid key
  rw [found]
  congr 1
  ext v
  rw [spec, models.maps]

theorem raxInsert_models (key : RaxKey) (data : Option V) :
    ∃ rax', raxInsert rax key.1 data = .ok (rax', ⟨(map.lookup key.1).isNone, map.lookup key.1⟩) ∧
      Models rax' (map.insert key.1 data) := by
  obtain ⟨rax', result, inserted, valid, counted, outcome⟩ :=
    raxGenericInsert_spec models.valid models.counted key.1 data true
  refine ⟨rax', ?_, ?_⟩ <;> rcases outcome with ⟨old, present, rfl, size, overwrites⟩ | ⟨missing, rfl, size, overwrites⟩
  · rw [raxInsert, inserted, (models.maps key.1 old).mpr present]
    rfl
  · rw [raxInsert, inserted, models.absent missing]
    rfl
  · refine models.overwrite valid counted overwrites ?_
    rw [size, models.size, Finset.insert_eq_of_mem (mem_keys_of_lookup ((models.maps key.1 old).mpr present))]
  · exact models.overwrite valid counted overwrites (size.trans (models.card_insert missing))

theorem raxTryInsert_models (key : RaxKey) (data : Option V) :
    ∃ rax' result, raxTryInsert rax key.1 data = .ok (rax', result) ∧
      Models rax' (keyStep map (.tryInsert key data)).1 ∧
      RaxOut.insert result = (keyStep map (.tryInsert key data)).2 := by
  obtain ⟨rax', result, inserted, valid, counted, outcome⟩ :=
    raxGenericInsert_spec models.valid models.counted key.1 data false
  refine ⟨rax', result, inserted, ?_⟩
  rcases outcome with ⟨old, present, rfl, size, same⟩ | ⟨missing, rfl, size, overwrites⟩
  · have found := (models.maps key.1 old).mpr present
    rw [keyStep, found]
    exact ⟨⟨valid, counted, by rw [same]; exact models.maps, size.trans models.size,
      by rw [same]; exact models.bounded⟩, rfl⟩
  · rw [keyStep, models.absent missing]
    exact ⟨models.overwrite valid counted overwrites (size.trans (models.card_insert missing)), rfl⟩

theorem raxRemove_models (key : RaxKey) :
    ∃ rax', raxRemove rax key.1 = .ok (rax', ⟨(map.lookup key.1).isSome, map.lookup key.1⟩) ∧
      Models rax' (map.erase key.1) := by
  obtain ⟨rax', result, removed, valid, counted, outcome⟩ :=
    raxRemove_spec models.valid models.counted models.bounded key.1
  refine ⟨rax', ?_, ?_⟩ <;> rcases outcome with ⟨old, present, rfl, size, removes⟩ | ⟨missing, rfl, rfl⟩
  · rw [removed, (models.maps key.1 old).mpr present]
    rfl
  · rw [removed, models.absent missing]
    rfl
  · refine models.erase valid counted removes ?_
    rw [size, models.size, Finset.card_erase_of_mem (mem_keys_of_lookup ((models.maps key.1 old).mpr present))]
  · have absent := models.absent missing
    refine models.erase valid counted (fun other v => ⟨fun maps => ⟨?_, maps⟩, And.right⟩) ?_
    · rintro rfl
      exact missing v maps
    · rw [models.size, Finset.erase_eq_of_notMem]
      rwa [Finmap.mem_keys, ← Finmap.lookup_eq_none]

omit models

theorem raxStep_models (rax : Rax V) (map : KeyMap V) (op : RaxOp V) (models : Models rax map) :
    Outcome (raxStep rax op) (fun _ => False) fun result =>
      Models result.1 (keyStep map op).1 ∧ result.2 = (keyStep map op).2 := by
  cases op with
  | insert key data =>
    obtain ⟨rax', inserted, models'⟩ := raxInsert_models models key data
    rw [raxStep, inserted]
    exact ⟨models', rfl⟩
  | tryInsert key data =>
    obtain ⟨rax', result, inserted, models'⟩ := raxTryInsert_models models key data
    rw [raxStep, inserted]
    exact models'
  | remove key =>
    obtain ⟨rax', removed, models'⟩ := raxRemove_models models key
    rw [raxStep, removed]
    exact ⟨models', rfl⟩
  | find key =>
    rw [raxStep, raxFind_models models]
    exact ⟨models, rfl⟩

/-- A run from the empty tree never fails and replies as the finite map does. At its end a
lookup returns the value of the map, and the size is the number of keys. -/
theorem rax_refines_finmap (ops : List (RaxOp V)) : Outcome (run raxStep raxNew ops) (fun _ => False) fun result =>
      let map := (specRun keyStep ∅ ops).1
      result.2 = (specRun keyStep ∅ ops).2 ∧
      (∀ key, raxFind result.1 key = .ok (map.lookup key)) ∧ result.1.numele = map.keys.card := by
  refine (run_simulates raxStep_models ops raxNew ∅ models_raxNew).mono ?_
  intro result ⟨models, replies⟩
  exact ⟨replies, raxFind_models models, models.size⟩

/-- All nodes of a subtree. The first one is its root. -/
def RaxNode.nodes : RaxNode V → List (RaxNode V)
  | ⟨iskey, isnull, iscompr, data, children, slot⟩ =>
    ⟨iskey, isnull, iscompr, data, children, slot⟩ :: nodesOf children
where
  nodesOf : List (RaxNode V) → List (RaxNode V)
    | [] => []
    | child :: children => child.nodes ++ nodesOf children

theorem nodes_eq (n : RaxNode V) : n.nodes = n :: n.children.flatMap RaxNode.nodes := by
  have all (children : List (RaxNode V)) : RaxNode.nodes.nodesOf children = children.flatMap RaxNode.nodes := by
    induction children with
    | nil => rfl
    | cons child children ih => rw [RaxNode.nodes.nodesOf, ih, List.flatMap_cons]
  obtain ⟨_, _, _, _, children, _⟩ := n
  rw [RaxNode.nodes, all]

theorem Valid.nodes {n : RaxNode V} (valid : Valid n) : n.nodes.length = nodeCount n ∧
    (∀ node ∈ n.nodes, Local node) ∧ ∀ node ∈ n.nodes.tail, node.children = [] → node.iskey = true := by
  induction valid with
  | @mk n fields subtrees leaves ih =>
    rw [nodes_eq]
    refine ⟨?_, ?_, ?_⟩
    · rw [List.length_cons, List.length_flatMap, nodeCount_eq, Nat.add_comm]
      congr 2
      exact List.map_congr_left fun child member => (ih child member).1
    · intro node member
      rcases List.mem_cons.mp member with rfl | member
      · exact fields
      · obtain ⟨child, below, member⟩ := List.mem_flatMap.mp member
        exact (ih child below).2.1 node member
    · intro node member
      obtain ⟨child, below, member⟩ := List.mem_flatMap.mp member
      have spec := (ih child below).2.2 node
      rw [nodes_eq] at member spec
      rcases List.mem_cons.mp member with rfl | member
      · exact leaves _ below
      · exact spec member

/-- In the tree at the end of a run every childless node other than the head is a key, the
edges of a node are sorted, a compressed node has at least two bytes and one child, and the
counter is the number of nodes. -/
theorem rax_structure (ops : List (RaxOp V)) : Outcome (run raxStep raxNew ops) (fun _ => False) fun result =>
      let nodes := result.1.head.nodes
      (∀ node ∈ nodes.tail, node.children = [] → node.iskey = true) ∧
      (∀ node ∈ nodes, node.iscompr = false → node.children.length = node.data.length ∧ node.data.Pairwise (· < ·)) ∧
      (∀ node ∈ nodes, node.iscompr = true → 2 ≤ node.data.length ∧ node.children.length = 1) ∧
      result.1.numnodes = nodes.length := by
  refine (run_simulates raxStep_models ops raxNew ∅ models_raxNew).mono ?_
  intro result ⟨models, _⟩
  obtain ⟨length, fields, leaves⟩ := models.valid.nodes
  exact ⟨leaves, fun node member => (fields node member).plain, fun node member => (fields node member).compressed,
    models.counted.trans length.symm⟩

end Redis.Radix

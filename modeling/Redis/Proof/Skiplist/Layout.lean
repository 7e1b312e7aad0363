import Redis.Construction.Skiplist
import Redis.Foundation.Levels

namespace Redis.SortedSet
open Foundation List
variable {Score : Type}

/-- A node of the list without its links. -/
structure Row (Score : Type) where
  pointer : Nat
  ele : Sds
  score : Score
  height : Nat

variable {zsl zsl' : Zskiplist Score} {rows before after : List (Row Score)} {row : Row Score} {place : Place} {i : Nat}

/-- The place of the last node of a prefix. -/
def placeOf (before : List (Row Score)) : Place :=
  match before.getLast? with
  | none => .header
  | some row => .node row.pointer

/-- The number of levels of the last node of a prefix. -/
def reach (before : List (Row Score)) : Nat :=
  match before.getLast? with
  | none => zskiplistMaxlevel
  | some row => row.height

def pointerOf (before : List (Row Score)) : Option Nat := before.getLast?.map Row.pointer

@[simp] theorem placeOf_nil : placeOf ([] : List (Row Score)) = .header := rfl

theorem placeOf_of (last : row ∈ before.getLast?) : placeOf before = .node row.pointer := by
  rw [placeOf, last]

@[simp] theorem placeOf_concat (before : List (Row Score)) (row : Row Score) :
    placeOf (before ++ [row]) = .node row.pointer := by
  rw [placeOf_of getLast?_concat]

@[simp] theorem reach_concat (before : List (Row Score)) (row : Row Score) : reach (before ++ [row]) = row.height := by
  rw [reach, getLast?_concat]

@[simp] theorem pointerOf_concat (before : List (Row Score)) (row : Row Score) :
    pointerOf (before ++ [row]) = some row.pointer := by
  rw [pointerOf, getLast?_concat, Option.map_some]

theorem le_reach (bound : i ≤ zskiplistMaxlevel) (last : ∀ row ∈ before.getLast?, i ≤ row.height) : i ≤ reach before := by
  rw [reach]
  split
  · exact bound
  · exact last _ ‹_›

theorem reach_last (tall : i ≤ reach before) : ∀ row ∈ before.getLast?, i ≤ row.height := by
  intro row member
  rwa [reach, member] at tall

theorem placeOf_pointer (before : List (Row Score)) : (placeOf before).pointer? = pointerOf before := by
  rcases eq_nil_or_concat' before with rfl | ⟨init, row, rfl⟩
  · rfl
  · rw [placeOf_concat, pointerOf_concat]
    rfl

/-- The content of `x->level[i]`. -/
def levelAt (zsl : Zskiplist Score) (place : Place) (i : Nat) : Option ZskiplistLevel :=
  match place with
  | .header => zsl.header[i]?
  | .node pointer => (zsl.heap pointer).bind (·.level[i]?)

theorem loadNode_of {pointer : Nat} {node : ZskiplistNode Score} (stored : zsl.heap pointer = some node) :
    loadNode zsl pointer = .ok node := by
  rw [loadNode, stored]

theorem readLevel_of {level : ZskiplistLevel} (found : levelAt zsl place i = some level) :
    readLevel zsl place i = .ok level := by
  cases place with
  | header => exact readCell_of found
  | node pointer =>
    obtain ⟨node, stored, found⟩ := Option.bind_eq_some_iff.mp found
    simp only [readLevel, loadNode_of stored]
    exact readCell_of found

/-- The level of a node with the rows behind it. -/
def link (i : Nat) (after : List (Row Score)) : ZskiplistLevel :=
  ⟨(nextAbove Row.height i after).1.map Row.pointer, (nextAbove Row.height i after).2⟩

/-- The rows are the nodes of the list in memory. The unused levels of the header have no
node, and their spans have no meaning. -/
structure Linked (zsl : Zskiplist Score) (rows : List (Row Score)) : Prop where
  links : ∀ before after i, rows = before ++ after → i < reach before → i < zsl.level →
    levelAt zsl (placeOf before) i = some (link i after)
  header : zsl.header.length = zskiplistMaxlevel
  unused : ∀ i level, zsl.level ≤ i → zsl.header[i]? = some level → level.forward = none
  nodes : ∀ before row after, rows = before ++ row :: after → ∃ node, zsl.heap row.pointer = some node ∧
    node.ele = row.ele ∧ node.score = row.score ∧ node.backward = pointerOf before ∧ node.level.length = row.height
  distinct : (rows.map Row.pointer).Nodup
  fresh : ∀ row ∈ rows, row.pointer < zsl.fresh
  heights : ∀ row ∈ rows, 0 < row.height ∧ row.height ≤ zsl.level
  bounds : 1 ≤ zsl.level ∧ zsl.level ≤ zskiplistMaxlevel
  tail : zsl.tail = pointerOf rows
  length : zsl.length = rows.length

theorem Linked.load (linked : Linked zsl rows) (split : rows = before ++ row :: after) :
    ∃ node, loadNode zsl row.pointer = .ok node ∧ node.ele = row.ele ∧ node.score = row.score ∧
      node.backward = pointerOf before := by
  obtain ⟨node, stored, ele, score, backward, _⟩ := linked.nodes before row after split
  exact ⟨node, loadNode_of stored, ele, score, backward⟩

section Search
/-- A test on nodes that depends on the row and the rank only. -/
def Agrees (ahead : ZskiplistNode Score → Nat → Bool) (test : Row Score → Nat → Bool) : Prop :=
  ∀ node row rank, node.ele = row.ele → node.score = row.score → ahead node rank = test row rank

/-- The next row at a level does not pass the test. -/
def Blocked (test : Row Score → Nat → Bool) (i : Nat) (before after : List (Row Score)) : Prop :=
  ∀ low row rest, after = low ++ row :: rest → (∀ other ∈ low, other.height ≤ i) → i < row.height →
    test row (before.length + low.length + 1) = false

variable {ahead : ZskiplistNode Score → Nat → Bool} {test : Row Score → Nat → Bool}

/-- The rows that a search passes from one place to another. -/
inductive Passed (test : Row Score → Nat → Bool) (i : Nat) :
    List (Row Score) → List (Row Score) → List (Row Score) → Prop where
  | stop {before rest : List (Row Score)} (blocked : Blocked test i before rest) : Passed test i before [] rest
  | step {before low middle rest : List (Row Score)} {row : Row Score} (all : ∀ other ∈ low, other.height ≤ i)
      (tall : i < row.height) (passes : test row (before.length + low.length + 1) = true)
      (later : Passed test i (before ++ low ++ [row]) middle rest) : Passed test i before (low ++ row :: middle) rest

theorem blocked_of_tall {low rest : List (Row Score)} (all : ∀ other ∈ low, other.height ≤ i) (tall : i < row.height)
    (fails : test row (before.length + low.length + 1) = false) : Blocked test i before (low ++ row :: rest) := by
  intro low' row' rest' same all' tall'
  have next := nextAbove_tall all tall rest
  rw [same, nextAbove_tall all' tall' rest', Prod.mk.injEq, Option.some_inj] at next
  obtain ⟨rfl, lengths⟩ := next
  rwa [Nat.add_assoc, lengths]

/-- The inner loop passes rows above the level that pass the test. -/
theorem walk_spec (linked : Linked zsl rows) (agrees : Agrees ahead test) (fuel : Nat)
    (split : rows = before ++ after) (tall : i < reach before) (used : i < zsl.level) (enough : after.length ≤ fuel) :
    ∃ middle rest, after = middle ++ rest ∧ Passed test i before middle rest ∧
      walk zsl ahead i fuel (placeOf before) before.length =
        .ok (placeOf (before ++ middle), (before ++ middle).length) := by
  induction fuel using Nat.strong_induction_on generalizing before after with
  | h fuel ih =>
    have current := readLevel_of (linked.links before after i split tall used)
    rw [walk.eq_def]
    dsimp only
    rw [current, ok_bind]
    rcases nextAbove_cases Row.height i after with all | ⟨low, row, rest, rfl, all, tall'⟩
    · rw [link, nextAbove_all all]
      refine ⟨[], after, rfl, .stop fun low row rest same _ tall' => ?_, by rw [append_nil]; rfl⟩
      have := all row (by rw [same]; simp)
      omega
    rw [link, nextAbove_tall all tall']
    dsimp only [Option.map_some]
    have split' : rows = (before ++ low) ++ row :: rest := by rw [split, append_assoc]
    obtain ⟨node, loaded, ele, score, _⟩ := linked.load split'
    rw [loaded, ok_bind, agrees node row _ ele score]
    cases passes : test row (before.length + (low.length + 1)) with
    | false =>
      refine ⟨[], _, rfl, .stop (blocked_of_tall all tall' passes), ?_⟩
      rw [append_nil]
      rfl
    | true =>
      obtain _ | fuel := fuel
      · simp at enough
      have split'' : rows = (before ++ low ++ [row]) ++ rest := by rw [split', append_assoc _ [row], singleton_append]
      obtain ⟨middle, rest', rfl, passed, walked⟩ := ih fuel (Nat.lt_succ_self fuel) split''
        (by rwa [reach_concat]) (by simp only [length_append, length_cons] at enough; omega)
      have lengths : (before ++ low ++ [row]).length = before.length + (low.length + 1) := by
        simp only [length_append, length_singleton]
        omega
      have joined : before ++ low ++ [row] ++ middle = before ++ (low ++ row :: middle) := by simp
      refine ⟨low ++ row :: middle, rest', by simp, .step all tall' passes passed, ?_⟩
      rw [placeOf_concat, lengths, joined] at walked
      exact walked

variable {k : Nat} {middle rest : List (Row Score)}

/-- The rest behind rows below a level is blocked as before. -/
theorem Blocked.behind (blocked : Blocked test k before (middle ++ rest))
    (all : ∀ other ∈ middle, other.height ≤ k) : Blocked test k (before ++ middle) rest := by
  intro low row tail same low' tall
  have next := blocked (middle ++ low) row tail (by rw [same, append_assoc])
    (fun other member => (mem_append.mp member).elim (all other) (low' other)) tall
  rw [← next, length_append, length_append]
  congr 1
  omega

theorem Passed.blocked (passed : Passed test i before middle rest) : Blocked test i (before ++ middle) rest := by
  induction passed with
  | stop blocked => rwa [append_nil]
  | step _ _ _ _ ih => simpa using ih

theorem Passed.last (passed : Passed test i before middle rest) :
    ∀ row ∈ middle.getLast?, i < row.height ∧ test row (before.length + middle.length) = true := by
  induction passed with
  | stop => exact nofun
  | @step before low middle rest row all tall passes _ ih =>
    intro last member
    rw [getLast?_append_of_ne_nil _ (cons_ne_nil row middle)] at member
    rcases eq_or_ne middle [] with rfl | nonempty
    · cases member
      rw [length_append]
      exact ⟨tall, passes⟩
    · rw [getLast?_cons_of_ne_nil nonempty] at member
      rw [show before.length + (low ++ row :: middle).length = (before ++ low ++ [row]).length + middle.length by
        simp; omega]
      exact ih last member

/-- A search from a prefix does not pass a level at which it is blocked. -/
theorem Passed.low (passed : Passed test i before middle rest) (above : i ≤ k)
    (blocked : Blocked test k before (middle ++ rest)) : ∀ other ∈ middle, other.height ≤ k := by
  induction passed with
  | stop => exact nofun
  | @step before low middle rest row all tall passes _ ih =>
    have low' : ∀ other ∈ low, other.height ≤ k := fun other member => (all other member).trans above
    have short : row.height ≤ k := by
      by_contra taller
      simpa [passes] using blocked low row (middle ++ rest) (by simp) low' (not_le.mp taller)
    have whole : ∀ other ∈ low ++ [row], other.height ≤ k := forall_mem_append.mpr ⟨low', by simpa using short⟩
    rw [append_cons, append_assoc] at blocked
    rw [append_cons]
    refine forall_mem_append.mpr ⟨whole, ih ?_⟩
    rw [append_assoc]
    exact blocked.behind whole

/-- The arrays `update` and `rank` of a search that ends at a prefix. -/
def pathTo (levels : Nat) (before : List (Row Score)) : List (Place × Nat) :=
  (List.range levels).map fun i => (placeOf (lastAbove Row.height i before), (lastAbove Row.height i before).length)

/-- The outer loop ends at a prefix that fits all levels. -/
theorem descend_spec (linked : Linked zsl rows) (agrees : Agrees ahead test) (levels : Nat) (used : levels ≤ zsl.level)
    (split : rows = before ++ after) (tall : levels ≤ reach before) :
    ∃ middle rest, after = middle ++ rest ∧
      descend zsl ahead levels (placeOf before) before.length = .ok (pathTo levels (before ++ middle)) ∧
      (∀ k, levels ≤ k → Blocked test k before after → ∀ other ∈ middle, other.height ≤ k) ∧
      (∀ row ∈ middle.getLast?, test row (before.length + middle.length) = true) ∧
      (0 < levels → Blocked test 0 (before ++ middle) rest) := by
  induction levels generalizing before after with
  | zero => exact ⟨[], after, rfl, rfl, nofun, nofun, nofun⟩
  | succ i ih =>
    have enough : after.length ≤ zsl.length := by
      rw [linked.length, split, length_append]
      omega
    obtain ⟨first, rest₁, rfl, passed, walked⟩ := walk_spec linked agrees zsl.length split tall used enough
    have last : ∀ row ∈ (before ++ first).getLast?, i < row.height := by
      rcases eq_or_ne first [] with rfl | nonempty
      · rw [append_nil]
        exact reach_last tall
      · rw [getLast?_append_of_ne_nil _ nonempty]
        exact fun row member => (passed.last row member).1
    have tall₁ : i ≤ reach (before ++ first) :=
      le_reach ((Nat.le_of_succ_le used).trans linked.bounds.2) fun row member => (last row member).le
    obtain ⟨second, rest₂, rfl, descended, low, ends, blocked⟩ :=
      ih (Nat.le_of_succ_le used) (by rw [split, append_assoc]) tall₁
    have low₂ := low i le_rfl passed.blocked
    refine ⟨first ++ second, rest₂, by simp, ?_, ?_, ?_, ?_⟩
    · rw [descend, walked, ok_bind]
      dsimp only
      rw [descended, ok_bind, pathTo, pathTo, range_succ, map_append, map_singleton, ← append_assoc,
        lastAbove_eq low₂ last]
      rfl
    · intro k above blocked'
      have low₁ := passed.low (Nat.le_of_succ_le above) blocked'
      have behind := blocked'.behind low₁
      intro other member
      rcases mem_append.mp member with member | member
      · exact low₁ other member
      · exact low k (Nat.le_of_succ_le above) behind other member
    · rcases eq_or_ne second [] with rfl | nonempty
      · rw [append_nil]
        exact fun row member => (passed.last row member).2
      · rw [length_append, ← Nat.add_assoc, ← length_append, getLast?_append_of_ne_nil _ nonempty]
        exact ends
    · intro _
      rw [← append_assoc]
      rcases Nat.eq_zero_or_pos i with rfl | positive
      · exact passed.blocked.behind low₂
      · exact blocked positive

/-- A search ends between a row that passes the test and one that does not. -/
theorem search_spec (linked : Linked zsl rows) (agrees : Agrees ahead test) :
    ∃ before after, rows = before ++ after ∧ search zsl ahead = .ok (pathTo zsl.level before) ∧
      (∀ row ∈ before.getLast?, test row before.length = true) ∧
      ∀ row ∈ after.head?, test row (before.length + 1) = false := by
  obtain ⟨before, after, split, searched, _, last, blocked⟩ :=
    descend_spec linked agrees zsl.level le_rfl (nil_append rows).symm linked.bounds.2
  refine ⟨before, after, split, searched, by simpa using last, fun row member => ?_⟩
  obtain ⟨rest, rfl⟩ := head?_eq_some_iff.mp member
  exact blocked linked.bounds.1 [] row rest rfl nofun (linked.heights row (by rw [split]; simp)).1

theorem readCell_pathTo {levels : Nat} (inside : i < levels) (before : List (Row Score)) :
    readCell (pathTo levels before) i =
      .ok (placeOf (lastAbove Row.height i before), (lastAbove Row.height i before).length) :=
  readCell_of (by simp [pathTo, inside])
end Search
end Redis.SortedSet

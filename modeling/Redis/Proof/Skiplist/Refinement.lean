import Redis.Proof.Skiplist.Operations

namespace Redis.SortedSet
open Foundation List
variable {Score : Type} {zsl : Zskiplist Score} {rows before after : List (Row Score)} {row : Row Score} {i : Nat}

/-- The forward pointers of a level lead from a place through these nodes to the end of the list. -/
def Chain (zsl : Zskiplist Score) (i : Nat) : Place → List Nat → Prop
  | place, [] => (levelAt zsl place i).map ZskiplistLevel.forward = some none
  | place, pointer :: rest =>
    (levelAt zsl place i).map ZskiplistLevel.forward = some (some pointer) ∧ Chain zsl i (.node pointer) rest

/-- The backward pointers lead from a node through these nodes to the start of the list. -/
def BackwardChain (zsl : Zskiplist Score) : Option Nat → List Nat → Prop
  | start, [] => start = none
  | start, pointer :: rest => start = some pointer ∧
      ∃ node, zsl.heap pointer = some node ∧ BackwardChain zsl node.backward rest

/-- The rank of a node, and the number of nodes for the end of the list. -/
def rankOf (order : List Nat) : Option Nat → Nat
  | none => order.length
  | some pointer => order.idxOf pointer + 1

/-- The span of a level is the distance between two ranks. -/
def SpanExact (order : List Nat) (rank : Nat) (level : ZskiplistLevel) : Prop :=
  rank + level.span = rankOf order level.forward

/-- The links of the skiplist are exact for a sequence of nodes. -/
structure SkiplistValid [LinearOrder Score] (zsl : Zskiplist Score) (nodes : List (Nat × ZskiplistNode Score)) : Prop where
  stored : ∀ entry ∈ nodes, zsl.heap entry.1 = some entry.2
  increasing : nodes.Pairwise fun a b => a.2.score < b.2.score ∨ a.2.score = b.2.score ∧ sdscmp a.2.ele b.2.ele < 0
  bottom : Chain zsl 0 .header (nodes.map Prod.fst)
  chains : ∀ i < zskiplistMaxlevel,
    Chain zsl i .header ((nodes.filter fun entry => i < entry.2.level.length).map Prod.fst)
  headerSpans : ∀ i < zsl.level, ∃ level, zsl.header[i]? = some level ∧ SpanExact (nodes.map Prod.fst) 0 level
  spans : ∀ first entry second, nodes = first ++ entry :: second → ∀ level ∈ entry.2.level,
    SpanExact (nodes.map Prod.fst) (first.length + 1) level
  backward : BackwardChain zsl zsl.tail (nodes.map Prod.fst).reverse
  tail : zsl.tail = (nodes.map Prod.fst).getLast?
  length : zsl.length = nodes.length
  level : zsl.level = (nodes.map fun entry => entry.2.level.length).foldr max 1

/-- The scores and elements on the bottom level. -/
def elementsFrom (zsl : Zskiplist Score) : Nat → Option Nat → List (Score × Sds)
  | 0, _ => []
  | _, none => []
  | count + 1, some pointer =>
    match zsl.heap pointer with
    | none => []
    | some node => (node.score, node.ele) :: elementsFrom zsl count (node.level.head?.bind ZskiplistLevel.forward)

def elements (zsl : Zskiplist Score) : List (Score × Sds) :=
  elementsFrom zsl zsl.length (zsl.header.head?.bind ZskiplistLevel.forward)

section Links
variable (linked : Linked zsl rows)
include linked
theorem Linked.chain (used : i < zsl.level) (split : rows = before ++ after) (tall : i < reach before) :
    Chain zsl i (placeOf before) ((after.filter fun row => i < row.height).map Row.pointer) := by
  induction count : after.length using Nat.strong_induction_on generalizing before after with
  | h count ih =>
    have level := linked.links before after i split tall used
    rcases nextAbove_cases Row.height i after with all | ⟨low, next, rest, rfl, all, above⟩
    · have none : after.filter (fun row => decide (i < row.height)) = [] := by
        rw [filter_eq_nil_iff]
        intro row member
        simpa using all row member
      rw [none, map_nil, Chain, level, link, nextAbove_all all]
      rfl
    · have none : low.filter (fun row => decide (i < row.height)) = [] := by
        rw [filter_eq_nil_iff]
        intro row member
        simpa using all row member
      have behind := ih rest.length (by rw [← count, length_append, length_cons]; omega)
        (show rows = (before ++ low ++ [next]) ++ rest by simp [split]) (by rwa [reach_concat]) rfl
      rw [placeOf_concat] at behind
      rw [filter_append, none, nil_append, filter_cons_of_pos (by simpa using above), map_cons, Chain,
        level, link, nextAbove_tall all above]
      exact ⟨rfl, behind⟩

theorem Linked.spanExact (split : rows = before ++ after) (i : Nat) :
    SpanExact (rows.map Row.pointer) before.length (link i after) := by
  rcases nextAbove_cases Row.height i after with all | ⟨low, next, rest, rfl, all, above⟩
  · rw [link, nextAbove_all all, SpanExact, split]
    simp [rankOf]
  · have distinct := linked.distinct
    rw [link, nextAbove_tall all above, SpanExact, Option.map_some, rankOf]
    rw [split, ← append_assoc, map_append, map_cons] at distinct ⊢
    have absent : next.pointer ∉ (before ++ low).map Row.pointer := by
      rw [nodup_middle, nodup_cons] at distinct
      exact fun member => distinct.1 (mem_append_left _ member)
    rw [idxOf_append_of_notMem absent, idxOf_cons_self, length_map, length_append]
    dsimp only
    omega

theorem Linked.backwardChain (split : rows = before ++ after) :
    BackwardChain zsl (pointerOf before) (before.map Row.pointer).reverse := by
  induction before using List.reverseRecOn generalizing after with
  | nil => rfl
  | append_singleton init last ih =>
    obtain ⟨node, stored, _, _, backward, _⟩ := linked.nodes init last after (by rw [split]; simp)
    rw [map_append, map_singleton, reverse_concat, pointerOf_concat]
    refine ⟨rfl, node, stored, ?_⟩
    rw [backward]
    exact ih (show rows = init ++ last :: after by rw [split]; simp)

theorem Linked.elementsFrom (split : rows = before ++ after) (count : Nat) (enough : after.length ≤ count) :
    elementsFrom zsl count (after.head?.map Row.pointer) = after.map fun row => (row.score, row.ele) := by
  induction after generalizing before count with
  | nil => cases count <;> rfl
  | cons row rest ih =>
    obtain _ | count := count
    · simp at enough
    · obtain ⟨node, stored, sameEle, sameScore, _, height⟩ := linked.nodes before row rest split
      have positive : ∀ row ∈ rest, 0 < row.height := fun other member =>
        (linked.heights other (by rw [split]; simp [member])).1
      have own := (split ▸ linked).own_level (linked.heights row (by rw [split]; simp)).1 linked.bounds.1
      rw [levelAt, stored, Option.bind_some, ← head?_eq_getElem?] at own
      have next := ih (show rows = (before ++ [row]) ++ rest by simp [split]) count (by simpa using enough)
      rw [head?_cons, Option.map_some, SortedSet.elementsFrom, stored]
      dsimp only
      rw [own, Option.bind_some, link_zero positive, next, sameEle, sameScore, map_cons]

theorem Linked.elements : elements zsl = rows.map fun row => (row.score, row.ele) := by
  have start := linked.links [] rows 0 rfl (show 0 < zskiplistMaxlevel by decide) linked.bounds.1
  rw [placeOf_nil, levelAt, ← head?_eq_getElem?] at start
  rw [SortedSet.elements, start, Option.bind_some, link_zero fun row member => (linked.heights row member).1]
  exact linked.elementsFrom (nil_append rows).symm zsl.length linked.length.ge

def nodeAt (zsl : Zskiplist Score) (row : Row Score) : Nat × ZskiplistNode Score :=
  (row.pointer, (zsl.heap row.pointer).getD ⟨row.ele, row.score, none, []⟩)

theorem Linked.nodeAt (member : row ∈ rows) :
    zsl.heap row.pointer = some (nodeAt zsl row).2 ∧ (nodeAt zsl row).2.ele = row.ele ∧
      (nodeAt zsl row).2.score = row.score ∧ (nodeAt zsl row).2.level.length = row.height := by
  obtain ⟨before, after, split⟩ := append_of_mem member
  obtain ⟨node, stored, ele, score, _, height⟩ := linked.nodes before row after split
  simp only [SortedSet.nodeAt, stored, Option.getD_some]
  exact ⟨trivial, ele, score, height⟩

omit linked

theorem map_nodeAt (zsl : Zskiplist Score) (rows : List (Row Score)) :
    (rows.map (nodeAt zsl)).map Prod.fst = rows.map Row.pointer := by
  rw [map_map]
  rfl

theorem Linked.headerChain (linked : Linked zsl rows) (inside : i < zskiplistMaxlevel) :
    Chain zsl i .header ((rows.filter fun row => i < row.height).map Row.pointer) := by
  by_cases used : i < zsl.level
  · exact linked.chain used (nil_append rows).symm inside
  · obtain ⟨level, read⟩ : ∃ level, zsl.header[i]? = some level :=
      ⟨_, getElem?_eq_getElem (by rw [linked.header]; exact inside)⟩
    have none : rows.filter (fun row => decide (i < row.height)) = [] := by
      rw [filter_eq_nil_iff]
      intro row member
      have height := (linked.heights row member).2
      simp only [decide_eq_true_eq]
      omega
    rw [none, map_nil, Chain, levelAt, read, Option.map_some, linked.unused i level (by omega) read]

variable [LinearOrder Score]

theorem Represents.valid (represents : Represents zsl rows) (ordered : Ordered rows) :
    SkiplistValid zsl (rows.map (nodeAt zsl)) := by
  have linked := represents.toLinked
  have heights : ∀ i, (rows.map (nodeAt zsl)).filter (fun entry => decide (i < entry.2.level.length)) =
      (rows.filter fun row => decide (i < row.height)).map (nodeAt zsl) := by
    intro i
    rw [filter_map]
    refine congrArg _ (filter_congr fun row member => ?_)
    simp only [Function.comp_apply, (linked.nodeAt member).2.2.2]
  refine ⟨?_, ?_, ?_, ?_, ?_, ?_, ?_, ?_, ?_, ?_⟩
  · intro entry member
    obtain ⟨row, present, rfl⟩ := mem_map.mp member
    exact (linked.nodeAt present).1
  · rw [pairwise_map]
    refine ordered.sorted.imp_of_mem fun {a b} memberA memberB less => ?_
    obtain ⟨_, eleA, scoreA, _⟩ := linked.nodeAt memberA
    obtain ⟨_, eleB, scoreB, _⟩ := linked.nodeAt memberB
    rw [eleA, scoreA, eleB, scoreB, sdscmp_neg_iff]
    exact Prod.Lex.toLex_lt_toLex.mp less
  · have all : rows.filter (fun row => decide (0 < row.height)) = rows := by
      rw [filter_eq_self]
      intro row member
      simpa using (linked.heights row member).1
    have chain := linked.headerChain (i := 0) (by decide)
    rwa [all, ← map_nodeAt zsl] at chain
  · intro i inside
    rw [heights, map_nodeAt]
    exact linked.headerChain inside
  · intro i used
    refine ⟨_, linked.links [] rows i rfl (used.trans_le linked.bounds.2) used, ?_⟩
    rw [map_nodeAt]
    exact linked.spanExact (nil_append rows).symm i
  · intro first entry second split level member
    obtain ⟨before, rest, rfl, rfl, mapped⟩ := map_eq_append_iff.mp split
    obtain ⟨row, after, rfl, rfl, rfl⟩ := map_eq_cons_iff.mp mapped
    obtain ⟨stored, _, _, height⟩ := linked.nodeAt (show row ∈ before ++ row :: after by simp)
    obtain ⟨i, read⟩ := mem_iff_getElem?.mp member
    have tall : i < row.height := height ▸ (List.getElem?_eq_some_iff.mp read).1
    have own := linked.own_level tall (tall.trans_le (linked.heights row (by simp)).2)
    rw [levelAt, stored, Option.bind_some, read] at own
    have spanned := linked.spanExact (append_cons before row after) i
    rw [length_append] at spanned
    rw [Option.some.inj own, length_map, map_nodeAt]
    exact spanned
  · rw [map_nodeAt, represents.tail]
    exact linked.backwardChain (append_nil rows).symm
  · rw [map_nodeAt, represents.tail, pointerOf, getLast?_map]
  · rw [length_map, represents.length]
  · rw [represents.level, map_map]
    refine congrArg _ (map_congr_left fun row member => ?_)
    exact (linked.nodeAt member).2.2.2.symm
end Links

section Runs
/-- The operations of the skiplist with their random draws. -/
inductive SkiplistOp (Score : Type) where
  | insert (draws : Nat) (score : Score) (ele : Sds)
  | delete (score : Score) (ele : Sds)
  | updateScore (draws : Nat) (curscore : Score) (ele : Sds) (newscore : Score)
  | deleteRangeByScore (range : Zrangespec Score)
  | deleteRangeByLex (range : Zlexrangespec)
  | deleteRangeByRank (start stop : Nat)

inductive SkiplistOut where
  | node (pointer : Nat)
  | deleted (found : Bool)
  | removed (elements : List Sds)

variable [LinearOrder Score]

def skiplistStep (zsl : Zskiplist Score) : SkiplistOp Score → Checked (Zskiplist Score × SkiplistOut)
  | .insert draws score ele => do
      let (zsl, pointer) ← zslInsert zsl draws score ele
      return (zsl, .node pointer)
  | .delete score ele => do
      let (zsl, found) ← zslDelete zsl score ele
      return (zsl, .deleted found)
  | .updateScore draws curscore ele newscore => do
      let (zsl, pointer) ← zslUpdateScore zsl draws curscore ele newscore
      return (zsl, .node pointer)
  | .deleteRangeByScore range => do
      let (zsl, removed) ← zslDeleteRangeByScore zsl range
      return (zsl, .removed removed)
  | .deleteRangeByLex range => do
      let (zsl, removed) ← zslDeleteRangeByLex zsl range
      return (zsl, .removed removed)
  | .deleteRangeByRank start stop => do
      let (zsl, removed) ← zslDeleteRangeByRank zsl start stop
      return (zsl, .removed removed)

/-- An inserted element is not in the list. -/
def NewElement (zsl : Zskiplist Score) : SkiplistOp Score → Prop
  | .insert _ _ ele => ele ∉ (elements zsl).map Prod.snd
  | _ => True

/-- An element whose score is updated is in the list with its current score. -/
def KnownElement (zsl : Zskiplist Score) : SkiplistOp Score → Prop
  | .updateScore _ curscore ele _ => (curscore, ele) ∈ elements zsl
  | _ => True

instance (zsl : Zskiplist Score) (op : SkiplistOp Score) : Decidable (NewElement zsl op) := by
  cases op <;> unfold NewElement <;> infer_instance

instance (zsl : Zskiplist Score) (op : SkiplistOp Score) : Decidable (KnownElement zsl op) := by
  cases op <;> unfold KnownElement <;> infer_instance

/-- The invariant that the steps keep. -/
def Sound (zsl : Zskiplist Score) : Prop := ∃ rows, Represents zsl rows ∧ Ordered rows

theorem zslCreate_sound : Sound (zslCreate : Zskiplist Score) := by
  refine ⟨[], ⟨⟨?_, by simp [zslCreate], ?_, by simp, by simp, by simp, by simp, by simp [zslCreate, zskiplistMaxlevel], rfl,
    rfl⟩, rfl⟩, .nil, .nil⟩
  · intro before after i split tall used
    obtain ⟨rfl, rfl⟩ := append_eq_nil_iff.mp split.symm
    obtain rfl : i = 0 := Nat.lt_one_iff.mp used
    rfl
  · intro i level above read
    rw [zslCreate, getElem?_replicate] at read
    split at read
    · cases read
      rfl
    · cases read

theorem deleteRange_sound {ahead inRange : ZskiplistNode Score → Nat → Bool} {aheadTest test : Row Score → Nat → Bool}
    (sound : Sound zsl) (search : Agrees ahead aheadTest) (agrees : Agrees inRange test) :
    ∃ zsl' removed, deleteRange zsl ahead inRange = .ok (zsl', removed) ∧ Sound zsl' := by
  obtain ⟨rows, represents, ordered⟩ := sound
  obtain ⟨before, removed, rest, zsl', rfl, ran, represents'⟩ := deleteRange_spec represents search agrees
  exact ⟨zsl', _, ran, _, represents', ordered.sublist (by simp)⟩

theorem skiplistStep_sound (sound : Sound zsl) (op : SkiplistOp Score) (new : NewElement zsl op) :
    (∃ result, skiplistStep zsl op = .ok result ∧ Sound result.1) ∨
      (¬ KnownElement zsl op ∧ skiplistStep zsl op = .error (.assertion .zslUpdateScore)) := by
  obtain ⟨rows, represents, ordered⟩ := sound
  have listed := represents.toLinked.elements
  cases op with
  | insert draws score ele =>
    have absent : ele ∉ rows.map Row.ele := by
      rwa [NewElement, listed, map_map] at new
    obtain ⟨before, after, zsl', x, _, ran, _, _, _, represents', ordered'⟩ :=
      zslInsert_spec represents ordered draws score ele absent
    refine .inl ⟨(zsl', .node x.pointer), ?_, _, represents', ordered'⟩
    rw [skiplistStep, ran]
    rfl
  | delete score ele =>
    rcases zslDelete_spec represents ordered score ele with ⟨before, row, after, zsl', rfl, _, _, ran, represents'⟩ | ⟨_, ran⟩
    · refine .inl ⟨(zsl', .deleted true), ?_, _, represents', ordered.sublist (by simp)⟩
      rw [skiplistStep, ran]
      rfl
    · refine .inl ⟨(zsl, .deleted false), ?_, rows, represents, ordered⟩
      rw [skiplistStep, ran]
      rfl
  | updateScore draws curscore ele newscore =>
    by_cases present : ∃ row ∈ rows, row.score = curscore ∧ row.ele = ele
    · obtain ⟨row, member, rfl, rfl⟩ := present
      obtain ⟨_, _, before, after, zsl', x, _, _, ran, _, _, represents', ordered'⟩ :=
        zslUpdateScore_spec represents ordered draws row member newscore
      refine .inl ⟨(zsl', .node x.pointer), ?_, _, represents', ordered'⟩
      rw [skiplistStep, ran]
      rfl
    · refine .inr ⟨?_, ?_⟩
      · rw [KnownElement, listed, mem_map]
        rintro ⟨row, member, same⟩
        rw [Prod.mk.injEq] at same
        exact present ⟨row, member, same⟩
      · rw [skiplistStep, zslUpdateScore_absent represents draws fun row member same => present ⟨row, member, same⟩]
        rfl
  | deleteRangeByScore range =>
    obtain ⟨zsl', removed, ran, sound'⟩ := deleteRange_sound ⟨rows, represents, ordered⟩
      (agrees_score fun score => !zslValueGteMin score range) (agrees_score fun score => zslValueLteMax score range)
    refine .inl ⟨(zsl', .removed removed), ?_, sound'⟩
    rw [skiplistStep, zslDeleteRangeByScore, ran]
    rfl
  | deleteRangeByLex range =>
    obtain ⟨zsl', removed, ran, sound'⟩ := deleteRange_sound ⟨rows, represents, ordered⟩
      (agrees_ele fun ele => !zslLexValueGteMin ele range) (agrees_ele fun ele => zslLexValueLteMax ele range)
    refine .inl ⟨(zsl', .removed removed), ?_, sound'⟩
    rw [skiplistStep, zslDeleteRangeByLex, ran]
    rfl
  | deleteRangeByRank start stop =>
    obtain ⟨zsl', removed, ran, sound'⟩ := deleteRange_sound ⟨rows, represents, ordered⟩
      (agrees_rank fun rank => decide (rank < start)) (agrees_rank fun rank => decide (rank ≤ stop))
    refine .inl ⟨(zsl', .removed removed), ?_, sound'⟩
    rw [skiplistStep, zslDeleteRangeByRank, ran]
    rfl

/-- Every sequence of operations keeps the links exact. It stops only at an update of an element
that is not in the list, where the assertion of `zslUpdateScore` fails. -/
theorem skiplist_links_exact (ops : List (SkiplistOp Score))
    (new : Guarded skiplistStep NewElement (zslCreate : Zskiplist Score) ops) :
    Outcome (run skiplistStep zslCreate ops) (fun fault => fault = .assertion .zslUpdateScore)
        (fun result => ∃ nodes, SkiplistValid result.1 nodes) ∧
      (Guarded skiplistStep KnownElement (zslCreate : Zskiplist Score) ops →
        ∃ result, run skiplistStep zslCreate ops = .ok result) := by
  constructor
  · refine (run_invariant (fun state op sound new => ?_) ops zslCreate zslCreate_sound new).mono ?_
    · rcases skiplistStep_sound sound op new with ⟨result, ran, sound'⟩ | ⟨_, ran⟩
      · rw [ran]
        exact sound'
      · rw [ran]
        rfl
    · rintro result ⟨rows, represents, ordered⟩
      exact ⟨_, represents.valid ordered⟩
  · intro known
    have finished : Outcome (run skiplistStep zslCreate ops) (fun _ => False) fun result => Sound result.1 := by
      refine run_invariant (fun state op sound guards => ?_) ops zslCreate zslCreate_sound (new.and known)
      rcases skiplistStep_sound sound op guards.1 with ⟨result, ran, sound'⟩ | ⟨unknown, _⟩
      · rw [ran]
        exact sound'
      · exact absurd guards.2 unknown
    obtain ⟨result, ran, _⟩ := finished.exists_ok
    exact ⟨result, ran⟩

/-- A run with a node that moves and a range deletion. -/
theorem skiplist_links_exact_of_move : ∃ result, run skiplistStep (zslCreate : Zskiplist Nat)
        [.insert 3 2 [97], .insert 0 1 [98], .updateScore 1 1 [98] 7, .deleteRangeByRank 1 1] = .ok result ∧
      ∃ nodes, SkiplistValid result.1 nodes := by
  obtain ⟨outcome, returns⟩ := skiplist_links_exact
    ([.insert 3 2 [97], .insert 0 1 [98], .updateScore 1 1 [98] 7, .deleteRangeByRank 1 1] : List (SkiplistOp Nat))
    (by decide +kernel)
  obtain ⟨result, ran⟩ := returns (by decide +kernel)
  exact ⟨result, ran, outcome.of_ok ran⟩
end Runs
end Redis.SortedSet

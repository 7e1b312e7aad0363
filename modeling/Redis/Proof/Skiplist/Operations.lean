import Redis.Proof.Skiplist.Delete

namespace Redis.SortedSet
open Foundation List
variable {Score : Type} {zsl zsl' : Zskiplist Score} {rows before after : List (Row Score)} {row x : Row Score}
variable {score : Score} {ele : Sds} {levels : Nat} {node : ZskiplistNode Score}

section Order
theorem sdscmp_neg_iff (a b : Sds) : sdscmp a b < 0 ↔ a.map UInt8.toNat < b.map UInt8.toNat := by
  induction a generalizing b with
  | nil => cases b <;> simp [sdscmp]
  | cons x a ih =>
    cases b with
    | nil => simp [sdscmp]
    | cons y b =>
      rw [map_cons, map_cons, cons_lt_cons_iff, sdscmp]
      by_cases same : x = y
      · subst same
        simp [ih]
      · have different : x.toNat ≠ y.toNat := fun equal => same (UInt8.toNat_inj.mp equal)
        rw [if_neg same]
        omega

theorem sdscmp_eq_zero_iff (a b : Sds) : sdscmp a b = 0 ↔ a = b := by
  induction a generalizing b with
  | nil => cases b <;> simp [sdscmp]
  | cons x a ih =>
    cases b with
    | nil => simp [sdscmp]
    | cons y b =>
      rw [sdscmp]
      by_cases same : x = y
      · subst same
        simp [ih]
      · have different : x.toNat ≠ y.toNat := fun equal => same (UInt8.toNat_inj.mp equal)
        rw [if_neg same]
        simp only [List.cons.injEq, same, false_and, iff_false]
        omega

/-- The order of the nodes is the lexicographic order of their scores and elements. -/
def sortKey (score : Score) (ele : Sds) : Score ×ₗ List Nat := toLex (score, ele.map UInt8.toNat)

def Row.key (row : Row Score) : Score ×ₗ List Nat := sortKey row.score row.ele

theorem sortKey_injective {score' : Score} {ele' : Sds} (same : sortKey score ele = sortKey score' ele') :
    score = score' ∧ ele = ele' := by
  have pair := toLex.injective same
  rw [Prod.mk.injEq] at pair
  exact ⟨pair.1, map_injective_iff.mpr (fun _ _ => UInt8.toNat_inj.mp) pair.2⟩

variable [LinearOrder Score]

theorem precedes_iff (row : Row Score) (score : Score) (ele : Sds) :
    row.precedes score ele = true ↔ row.key < sortKey score ele := by
  rw [Row.precedes, decide_eq_true_iff, Row.key, sortKey, sortKey, Prod.Lex.toLex_lt_toLex, sdscmp_neg_iff]

/-- The rows are sorted, and no element occurs twice. -/
structure Ordered (rows : List (Row Score)) : Prop where
  sorted : rows.Pairwise fun a b => a.key < b.key
  unique : (rows.map Row.ele).Nodup

theorem Ordered.sublist {rows' : List (Row Score)} (ordered : Ordered rows) (sub : rows'.Sublist rows) : Ordered rows' :=
  ⟨ordered.sorted.sublist sub, ordered.unique.sublist (sub.map Row.ele)⟩

variable (sorted : (before ++ after).Pairwise fun a b => a.key < b.key)
include sorted
theorem before_lt (sought : Sought before after score ele) : ∀ row ∈ before, row.key < sortKey score ele := by
  intro row member
  have less := (precedes_iff _ score ele).mp (sought.last _ (getLast_mem_getLast? (ne_nil_of_mem member)))
  have pairs : before.Pairwise fun a b => a.key ≤ b.key := (pairwise_append.mp sorted).1.imp le_of_lt
  exact (pairs.rel_getLast_of_rel_getLast_getLast member le_rfl).trans_lt less

theorem after_le (sought : Sought before after score ele) : ∀ row ∈ after, sortKey score ele ≤ row.key := by
  intro row member
  have least : sortKey score ele ≤ (after.head (ne_nil_of_mem member)).key := by
    rw [← not_lt, ← precedes_iff, sought.next _ (head_mem_head? (ne_nil_of_mem member))]
    exact Bool.false_ne_true
  have pairs : after.Pairwise fun a b => a.key ≤ b.key := (pairwise_append.mp sorted).2.1.imp le_of_lt
  exact least.trans (pairs.rel_head_of_rel_head_head member le_rfl)

/-- A row is sorted between its neighbours. -/
theorem pairwise_middle (last : ∀ row ∈ before.getLast?, row.key < x.key)
    (next : ∀ row ∈ after.head?, x.key < row.key) : (before ++ x :: after).Pairwise fun a b => a.key < b.key := by
  have chains {rows : List (Row Score)} : rows.IsChain (fun a b => a.key < b.key) ↔
      rows.Pairwise fun a b => a.key < b.key := @isChain_iff_pairwise _ _ _ ⟨lt_trans⟩
  rw [← chains, isChain_append] at sorted ⊢
  refine ⟨sorted.1, isChain_cons.mpr ⟨next, sorted.2.1⟩, fun row member other same => ?_⟩
  cases same
  exact last row member

omit sorted

/-- A new element keeps the order at the place that a search finds. -/
theorem Ordered.insert (ordered : Ordered (before ++ after)) (sought : Sought before after x.score x.ele)
    (new : x.ele ∉ (before ++ after).map Row.ele) : Ordered (before ++ x :: after) := by
  refine ⟨pairwise_middle ordered.sorted (fun row member => ?_) fun row member => ?_, ?_⟩
  · exact before_lt ordered.sorted sought row (mem_of_mem_getLast? member)
  · have member := mem_of_mem_head? member
    refine (after_le ordered.sorted sought row member).lt_of_ne fun same => new ?_
    rw [(sortKey_injective same).2]
    exact mem_map_of_mem (mem_append_right before member)
  · rw [map_append, map_cons, nodup_middle, nodup_cons, ← map_append]
    exact ⟨new, ordered.unique⟩
end Order

section Basic
theorem link_zero (positive : ∀ row ∈ after, 0 < row.height) : (link 0 after).forward = after.head?.map Row.pointer := by
  rcases after with _ | ⟨next, rest⟩
  · rfl
  · rw [link, nextAbove, if_pos (positive next mem_cons_self)]
    rfl

theorem found_spec (linked : Linked zsl (before ++ after)) :
    found zsl (pathTo zsl.level before) = .ok (after.head?.map Row.pointer) := by
  have positive : ∀ row ∈ before, 0 < row.height := fun row member => (linked.heights row (by simp [member])).1
  have current := linked.update (i := 0) linked.bounds.1
  have none : lowRows 0 before = [] := by rw [lowRows, lastAbove_zero positive, drop_length]
  rw [found, readCell_pathTo linked.bounds.1, ok_bind]
  rw [readLevel_of current, none, nil_append]
  exact congrArg Except.ok (link_zero fun row member => (linked.heights row (by simp [member])).1)

theorem Represents.free {pointer : Nat} (represents : Represents zsl rows)
    (unused : ∀ row ∈ rows, row.pointer ≠ pointer) : Represents (zslFreeNode zsl pointer) rows := by
  refine ⟨⟨?_, represents.header, represents.unused, ?_, represents.distinct, represents.fresh, represents.heights,
    represents.bounds, represents.tail, represents.length⟩, represents.level⟩
  · intro first second i split tall used
    rw [← represents.links first second i split tall used]
    have other : placeOf first ≠ .node pointer :=
      placeOf_ne_fresh fun row member => unused row (by rw [split]; simp [member])
    cases place : placeOf first with
    | header => rfl
    | node p =>
      have different : p ≠ pointer := fun same => other (by rw [place, same])
      simp [levelAt, zslFreeNode, storeNode, different]
  · intro first row second split
    have different : row.pointer ≠ pointer := unused row (by rw [split]; simp)
    obtain ⟨node, stored, content⟩ := represents.nodes first row second split
    exact ⟨node, by simp [zslFreeNode, storeNode, different, stored], content⟩

theorem topLevel_insert (before after : List (Row Score)) (x : Row Score) :
    topLevel (before ++ x :: after) = max (topLevel (before ++ after)) x.height := by
  refine Nat.le_antisymm (topLevel_le ((topLevel_pos _).trans (le_max_left _ _)) fun row member => ?_) (max_le ?_ ?_)
  · rcases mem_append.mp member with member | member
    · exact (le_topLevel (by simp [member])).trans (le_max_left _ _)
    · rcases mem_cons.mp member with rfl | member
      · exact le_max_right _ _
      · exact (le_topLevel (by simp [member])).trans (le_max_left _ _)
  · refine topLevel_le (topLevel_pos _) fun row member => le_topLevel ?_
    simp only [mem_append] at member ⊢
    tauto
  · exact le_topLevel (by simp)

theorem deleteAndFree (linked : Linked zsl (before ++ x :: after)) (enough : zsl.level ≤ levels) :
    ∃ zsl', zslDeleteNode zsl x.pointer (pathTo levels before) = .ok zsl' ∧
      Represents (zslFreeNode zsl' x.pointer) (before ++ after) := by
  obtain ⟨zsl', deleted, represents, _⟩ := zslDeleteNode_spec linked enough
  exact ⟨zsl', deleted, represents.free linked.apart⟩

/-- The links to a row depend on its pointer and its height. -/
theorem link_same (pointer : x.pointer = row.pointer) (height : x.height = row.height) (i : Nat)
    (low after : List (Row Score)) : link i (low ++ x :: after) = link i (low ++ row :: after) := by
  induction low with
  | nil =>
    rw [nil_append, nil_append, link, link, nextAbove, nextAbove, height]
    split <;> simp [pointer]
  | cons first low ih =>
    simp only [link, ZskiplistLevel.mk.injEq] at ih
    simp only [link, cons_append, nextAbove]
    split <;> simp [ih]

theorem Represents.rescore (score : Score) (represents : Represents zsl (before ++ row :: after))
    (stored : zsl.heap row.pointer = some node) :
    Represents (storeNode zsl row.pointer (some { node with score := score }))
      (before ++ { row with score := score } :: after) := by
  have linked := represents.toLinked
  have heights := linked.heights row (by simp)
  have levels (q : Place) (j : Nat) :
      levelAt (storeNode zsl row.pointer (some { node with score := score })) q j = levelAt zsl q j :=
    levelAt_storeNode { node with score := score } stored rfl q j
  have content := linked.shape rfl
  rw [stored, Option.map_some, Option.some_inj] at content
  simp only [shape, Row.shape, Prod.mk.injEq] at content
  have last : pointerOf (before ++ [{ row with score := score }]) = some row.pointer := pointerOf_concat before _
  have size : zsl.length = (before ++ { row with score := score } :: after).length := by
    rw [linked.length]
    simp
  refine ⟨@Linked.replace _ zsl (storeNode zsl row.pointer _) before after (some row) (some { row with score := score })
    (storeNode zsl row.pointer _) linked ?_ (fun q j _ => ?_) ?_ ?_ (fun q other => ?_) ⟨rfl, rfl, le_rfl⟩
    ⟨fun _ _ => rfl, ⟨rfl, rfl, rfl, rfl⟩, ?_, fun next rest same => ?_, fun _ _ => rfl⟩ zsl.length size, ?_⟩
  · rintro _ ⟨⟩
    exact linked.apart
  · rw [levels]
    by_cases update : j < zsl.level ∧ q = placeOf (lastAbove Row.height j before)
    · rw [if_pos update, update.2, linked.update update.1]
      exact congrArg some (@link_same _ row { row with score := score } rfl rfl j _ after).symm
    · rw [if_neg update]
  · rintro _ ⟨⟩ j short
    rw [levels]
    exact linked.own_level short (short.trans_le heights.2)
  · rintro _ ⟨⟩
    refine ⟨?_, linked.fresh row (by simp), heights⟩
    rw [shape_storeNode]
    simp [shape, Row.shape, content]
  · rw [shape_storeNode, if_neg (other _ rfl)]
  · refine linked.tail.trans ?_
    rcases eq_or_ne after [] with rfl | nonempty
    · rw [append_nil, pointerOf_concat]
      exact last.symm
    · rw [append_cons, pointerOf_append _ nonempty, pointerOf_append _ nonempty]
  · subst same
    rw [shape_storeNode, if_neg (linked.apart next (by simp)), linked.shape (append_cons before row _), Row.shape, Row.shape,
      pointerOf_concat]
    exact congrArg (fun pointer => some (next.ele, next.score, pointer, next.height)) last.symm
  · change zsl.level = _
    rw [represents.level, topLevel_insert, topLevel_insert]

theorem Linked.next (linked : Linked zsl (before ++ row :: after)) :
    ∃ level, readLevel zsl (.node row.pointer) 0 = .ok level ∧ level.forward = after.head?.map Row.pointer := by
  have own := linked.own_level (linked.heights row (by simp)).1 linked.bounds.1
  exact ⟨_, readLevel_of own, link_zero fun row member => (linked.heights row (by simp [member])).1⟩

variable [LinearOrder Score]

theorem zslInsert_spec (represents : Represents zsl rows) (ordered : Ordered rows) (draws : Nat) (score : Score) (ele : Sds)
    (new : ele ∉ rows.map Row.ele) :
    ∃ before after zsl' x, rows = before ++ after ∧ zslInsert zsl draws score ele = .ok (zsl', x.pointer) ∧
      x.ele = ele ∧ x.score = score ∧ x.pointer = zsl.fresh ∧ Represents zsl' (before ++ x :: after) ∧
      Ordered (before ++ x :: after) := by
  obtain ⟨before, after, zsl', x, rfl, sought, inserted, linked, rfl, rfl, _, pointer, _, level⟩ :=
    zslInsert_linked represents.toLinked draws score ele
  refine ⟨before, after, zsl', x, rfl, inserted, rfl, rfl, pointer, ⟨linked, ?_⟩, ordered.insert sought new⟩
  rw [level, represents.level, topLevel_insert]

/-- The search for an element finds it or the place where it is missing. -/
theorem sought_member (ordered : Ordered (before ++ after))
    (sought : Sought before after score ele) (present : row ∈ before ++ after) (sameScore : row.score = score)
    (sameEle : row.ele = ele) : ∃ rest, after = row :: rest := by
  subst sameScore sameEle
  rcases mem_append.mp present with member | member
  · exact absurd (before_lt ordered.sorted sought row member) (lt_irrefl _)
  · cases after with
    | nil => cases member
    | cons first rest =>
      rcases mem_cons.mp member with rfl | later
      · exact ⟨rest, rfl⟩
      · have least := after_le ordered.sorted sought first mem_cons_self
        have pairs := (pairwise_cons.mp (pairwise_append.mp ordered.sorted).2.1).1
        exact absurd (pairs row later) (not_lt.mpr least)

theorem zslDelete_spec (represents : Represents zsl rows) (ordered : Ordered rows) (score : Score) (ele : Sds) :
    (∃ before row after zsl', rows = before ++ row :: after ∧ row.score = score ∧ row.ele = ele ∧
      zslDelete zsl score ele = .ok (zsl', true) ∧ Represents zsl' (before ++ after)) ∨
      ((∀ row ∈ rows, ¬ (row.score = score ∧ row.ele = ele)) ∧ zslDelete zsl score ele = .ok (zsl, false)) := by
  obtain ⟨before, after, rfl, searched, last, next⟩ := search_spec represents.toLinked (agrees_precedes score ele)
  have sought : Sought before after score ele := ⟨last, next⟩
  rw [zslDelete, searched, ok_bind, found_spec represents.toLinked, ok_bind]
  rcases after with _ | ⟨row, rest⟩
  · refine .inr ⟨fun row member same => ?_, rfl⟩
    obtain ⟨rest, absurd⟩ := sought_member ordered sought member same.1 same.2
    cases absurd
  · obtain ⟨node, loaded, sameEle, sameScore, _⟩ := represents.toLinked.load rfl
    dsimp only [head?_cons, Option.map_some]
    rw [loaded, ok_bind]
    have same : (score = node.score ∧ sdscmp node.ele ele = 0) ↔ (score = row.score ∧ row.ele = ele) := by
      rw [sameEle, sameScore, sdscmp_eq_zero_iff]
    by_cases equal : score = row.score ∧ row.ele = ele
    · rw [if_pos (same.mpr equal)]
      obtain ⟨zsl', deleted, freed⟩ := deleteAndFree represents.toLinked le_rfl
      rw [deleted]
      exact .inl ⟨before, row, rest, _, rfl, equal.1.symm, equal.2, rfl, freed⟩
    · rw [if_neg (mt same.mp equal)]
      refine .inr ⟨fun other member same => equal ?_, rfl⟩
      obtain ⟨rest', found⟩ := sought_member ordered sought member same.1 same.2
      rw [List.cons.injEq] at found
      exact ⟨found.1 ▸ same.1.symm, found.1 ▸ same.2⟩

theorem key_lt {a b : Row Score} (less : a.score < b.score) : a.key < b.key := Prod.Lex.toLex_lt_toLex.mpr (.inl less)

variable (linked : Linked zsl (before ++ row :: after))
include linked
/-- A node that does not stay in its place is deleted and inserted again. -/
theorem reinsert_spec (ordered : Ordered (before ++ row :: after)) (draws : Nat) (score : Score) :
    ∃ before' after' zsl' x, before ++ after = before' ++ after' ∧
      (do let zsl ← zslDeleteNode zsl row.pointer (pathTo zsl.level before)
          let (zsl, new) ← zslInsert zsl draws score row.ele
          return (zslFreeNode zsl row.pointer, new)) = Except.ok (zsl', x.pointer) ∧ x.ele = row.ele ∧ x.score = score ∧
      Represents zsl' (before' ++ x :: after') ∧ Ordered (before' ++ x :: after') := by
  have absent : row.ele ∉ (before ++ after).map Row.ele := by
    have unique := ordered.unique
    rw [map_append, map_cons, nodup_middle, nodup_cons, ← map_append] at unique
    exact unique.1
  obtain ⟨z, deleted, remaining, fresh⟩ := zslDeleteNode_spec linked le_rfl
  have rest : Ordered (before ++ after) := ordered.sublist (by simp)
  obtain ⟨before', after', z', x, split, inserted, xele, xscore, pointer, represents', ordered'⟩ :=
    zslInsert_spec remaining rest draws score row.ele absent
  have older : row.pointer < z.fresh := fresh ▸ linked.fresh row (by simp)
  have freed : Represents (zslFreeNode z' row.pointer) (before' ++ x :: after') := by
    refine represents'.free fun other member => ?_
    rcases mem_append.mp member with member | member
    · exact linked.apart other (by rw [split]; simp [member])
    · rcases mem_cons.mp member with rfl | member
      · omega
      · exact linked.apart other (by rw [split]; simp [member])
  refine ⟨before', after', _, x, split, ?_, xele, xscore, freed, ordered'⟩
  rw [deleted, ok_bind, inserted]
  rfl

/-- The test of a neighbour that may not exist. -/
def neighbourTest (zsl : Zskiplist Score) (neighbour : Option Nat) (test : Score → Bool) : Checked Bool :=
  match neighbour with
  | none => return true
  | some pointer => return test (← loadNode zsl pointer).score

theorem Linked.backTest (score : Score) :
    ∃ smaller, neighbourTest zsl (pointerOf before) (fun other => decide (other < score)) = .ok smaller ∧
      (smaller = true → ∀ back ∈ before.getLast?, back.score < score) := by
  rcases eq_nil_or_concat' before with rfl | ⟨init, back, rfl⟩
  · exact ⟨true, rfl, nofun⟩
  · obtain ⟨other, loaded, _, same, _⟩ := linked.load (append_assoc init [back] (row :: after))
    refine ⟨decide (back.score < score), ?_, by simp⟩
    rw [pointerOf_concat, neighbourTest, loaded, ok_bind, same]
    rfl

theorem Linked.aheadTest (score : Score) :
    ∃ larger, neighbourTest zsl (after.head?.map Row.pointer) (fun other => decide (other > score)) = .ok larger ∧
      (larger = true → ∀ ahead ∈ after.head?, score < ahead.score) := by
  rcases after with _ | ⟨ahead, rest⟩
  · exact ⟨true, rfl, nofun⟩
  · obtain ⟨other, loaded, _, same, _⟩ := linked.load (append_cons before row (ahead :: rest))
    refine ⟨decide (ahead.score > score), ?_, by simp⟩
    rw [head?_cons, Option.map_some, neighbourTest, loaded, ok_bind, same]
    rfl

/-- The tests of the two neighbours decide if the node stays in its place. -/
theorem zslUpdateScore_tests (stored : zsl.heap row.pointer = some node) (draws : Nat) (score : Score)
    (searched : search zsl (fun node _ => precedes node row.score row.ele) = .ok (pathTo zsl.level before)) :
    ∃ smaller larger : Bool, zslUpdateScore zsl draws row.score row.ele score = (if (smaller && larger) = true then
          .ok (storeNode zsl row.pointer (some { node with score := score }), row.pointer)
        else do
          let zsl ← zslDeleteNode zsl row.pointer (pathTo zsl.level before)
          let (zsl, new) ← zslInsert zsl draws score row.ele
          return (zslFreeNode zsl row.pointer, new)) ∧
      (smaller = true → ∀ back ∈ before.getLast?, back.score < score) ∧
      (larger = true → ∀ ahead ∈ after.head?, score < ahead.score) := by
  obtain ⟨node', stored', sameEle, sameScore, backward, _⟩ := linked.nodes before row after rfl
  cases stored.symm.trans stored'
  obtain ⟨level, levelRead, forward⟩ := linked.next
  rw [zslUpdateScore, searched, ok_bind, found_spec linked, ok_bind]
  dsimp only [head?_cons, Option.map_some]
  rw [loadNode_of stored, ok_bind, require_of ⟨sameScore.symm, (sdscmp_eq_zero_iff _ _).mpr sameEle⟩, ok_bind, backward,
    levelRead]
  simp only [ok_bind, forward]
  -- each neighbour is read only when it exists
  obtain ⟨smaller, smallerRead, smallerMeans⟩ := linked.backTest score
  obtain ⟨larger, largerRead, largerMeans⟩ := linked.aheadTest score
  refine ⟨smaller, larger, ?_, smallerMeans, largerMeans⟩
  refine (congrArg (· >>= _) smallerRead).trans ?_
  rw [ok_bind]
  refine (congrArg (· >>= _) largerRead).trans ?_
  rw [sameEle]
  rfl

omit linked

theorem zslUpdateScore_spec (represents : Represents zsl rows) (ordered : Ordered rows) (draws : Nat) (row : Row Score)
    (present : row ∈ rows) (score : Score) :
    ∃ before after before' after' zsl' x, rows = before ++ row :: after ∧ before ++ after = before' ++ after' ∧
      zslUpdateScore zsl draws row.score row.ele score = .ok (zsl', x.pointer) ∧ x.ele = row.ele ∧ x.score = score ∧
      Represents zsl' (before' ++ x :: after') ∧ Ordered (before' ++ x :: after') := by
  obtain ⟨before, after, rfl, searched, last, next⟩ := search_spec represents.toLinked (agrees_precedes row.score row.ele)
  obtain ⟨after, rfl⟩ := sought_member ordered ⟨last, next⟩ present rfl rfl
  obtain ⟨node, stored, _⟩ := represents.nodes before row after rfl
  obtain ⟨smaller, larger, ran, back, ahead⟩ := zslUpdateScore_tests represents.toLinked stored draws score searched
  refine ⟨before, after, ?_⟩
  rw [ran]
  by_cases stays : (smaller && larger) = true
  · rw [if_pos stays]
    rw [Bool.and_eq_true] at stays
    refine ⟨before, after, _, { row with score := score }, rfl, rfl, rfl, rfl, rfl, represents.rescore score stored,
      pairwise_middle (ordered.sorted.sublist (by simp)) (fun other last => key_lt (back stays.1 other last))
        fun other next => key_lt (ahead stays.2 other next), ?_⟩
    have unique := ordered.unique
    rwa [map_append] at unique ⊢
  · rw [if_neg stays]
    obtain ⟨before', after', zsl', x, split, reinserted, content⟩ :=
      reinsert_spec represents.toLinked ordered draws score
    exact ⟨before', after', zsl', x, rfl, split, reinserted, content⟩

theorem zslUpdateScore_absent (represents : Represents zsl rows) (draws : Nat) {curscore : Score}
    (absent : ∀ row ∈ rows, ¬ (row.score = curscore ∧ row.ele = ele)) (score : Score) :
    zslUpdateScore zsl draws curscore ele score = .error (.assertion .zslUpdateScore) := by
  obtain ⟨before, after, rfl, searched, _⟩ := search_spec represents.toLinked (agrees_precedes curscore ele)
  rw [zslUpdateScore, searched, ok_bind, found_spec represents.toLinked, ok_bind]
  rcases after with _ | ⟨row, rest⟩
  · rfl
  · obtain ⟨node, loaded, sameEle, sameScore, _⟩ := represents.toLinked.load rfl
    have different : ¬ (curscore = node.score ∧ sdscmp node.ele ele = 0) := by
      rw [sameEle, sameScore, sdscmp_eq_zero_iff]
      exact fun same => absent row (by simp) ⟨same.1.symm, same.2⟩
    dsimp only [head?_cons, Option.map_some]
    rw [loaded, ok_bind, require, if_neg different]
    rfl
end Basic

section Ranges
variable {inRange ahead : ZskiplistNode Score → Nat → Bool} {test aheadTest : Row Score → Nat → Bool}

theorem agrees_score (f : Score → Bool) : Agrees (fun node _ => f node.score) fun row _ => f row.score :=
  fun _ _ _ _ score => congrArg f score

theorem agrees_ele (f : Sds → Bool) : Agrees (fun (node : ZskiplistNode Score) _ => f node.ele) fun row _ => f row.ele :=
  fun _ _ _ ele _ => congrArg f ele

theorem agrees_rank (f : Nat → Bool) : Agrees (fun (_ : ZskiplistNode Score) rank => f rank) fun _ rank => f rank :=
  fun _ _ _ _ _ => rfl

/-- The loop deletes a run of rows behind the ones that it skipped. -/
theorem deleteWhile_spec (agrees : Agrees inRange test) (represents : Represents zsl (before ++ after))
    (enough : zsl.level ≤ levels) (fuel rank : Nat) (fueled : after.length ≤ fuel) :
    ∃ removed rest zsl', after = removed ++ rest ∧
      deleteWhile inRange (pathTo levels before) fuel zsl (after.head?.map Row.pointer) rank =
        .ok (zsl', removed.map Row.ele) ∧
      Represents zsl' (before ++ rest) := by
  induction after generalizing zsl fuel rank with
  | nil => exact ⟨[], [], zsl, rfl, by rw [deleteWhile.eq_def]; rfl, represents⟩
  | cons row rest ih =>
    obtain ⟨node, loaded, sameEle, sameScore, _⟩ := represents.toLinked.load rfl
    have same := agrees node row rank sameEle sameScore
    rw [deleteWhile.eq_def]
    dsimp only [head?_cons, Option.map_some]
    rw [loaded, ok_bind, same]
    cases test row rank with
    | false => exact ⟨[], row :: rest, zsl, rfl, rfl, represents⟩
    | true =>
      obtain _ | fuel := fuel
      · simp at fueled
      · obtain ⟨level, levelRead, forward⟩ := represents.toLinked.next
        obtain ⟨z, deleted, freed⟩ := deleteAndFree represents.toLinked enough
        have lower : (zslFreeNode z row.pointer).level ≤ levels := by
          rw [freed.level]
          refine le_trans ?_ (represents.level ▸ enough)
          rw [topLevel_insert]
          exact le_max_left _ _
        obtain ⟨removed, rest', zsl', rfl, ran, final⟩ := ih freed lower fuel (rank + 1) (by simpa using fueled)
        refine ⟨row :: removed, rest', zsl', rfl, ?_, final⟩
        dsimp only
        rw [levelRead, ok_bind, deleted, ok_bind, forward, ran, sameEle]
        rfl

theorem deleteRange_spec (represents : Represents zsl rows) (search : Agrees ahead aheadTest) (agrees : Agrees inRange test) :
    ∃ before removed rest zsl', rows = before ++ (removed ++ rest) ∧
      deleteRange zsl ahead inRange = .ok (zsl', removed.map Row.ele) ∧ Represents zsl' (before ++ rest) := by
  obtain ⟨before, after, rfl, searched, _⟩ := search_spec represents.toLinked search
  have positive : ∀ row ∈ before, 0 < row.height := fun row member => (represents.heights row (by simp [member])).1
  have fueled : after.length ≤ zsl.length := by
    rw [represents.length, length_append]
    omega
  obtain ⟨removed, rest, zsl', rfl, ran, final⟩ :=
    deleteWhile_spec agrees represents le_rfl zsl.length (before.length + 1) fueled
  refine ⟨before, removed, rest, zsl', rfl, ?_, final⟩
  rw [deleteRange, searched, ok_bind, readCell_pathTo represents.bounds.1, ok_bind, found_spec represents.toLinked,
    ok_bind, lastAbove_zero positive]
  exact ran
end Ranges
end Redis.SortedSet

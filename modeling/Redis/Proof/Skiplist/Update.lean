import Redis.Proof.Skiplist.Layout

namespace Redis.SortedSet
open Foundation List
variable {Score : Type} {zsl zsl' : Zskiplist Score} {rows before after : List (Row Score)} {row : Row Score}
  {place : Place} {i : Nat}
variable {pointer k : Nat} {node : ZskiplistNode Score} {first low second : List (Row Score)}

/-- The content of a node without its links. -/
def shape (node : ZskiplistNode Score) : Sds × Score × Option Nat × Nat :=
  (node.ele, node.score, node.backward, node.level.length)

/-- Only links are changed. -/
structure Framed (zsl zsl' : Zskiplist Score) : Prop where
  header : zsl'.header.length = zsl.header.length
  heap : ∀ pointer, (zsl'.heap pointer).map shape = (zsl.heap pointer).map shape
  fresh : zsl'.fresh = zsl.fresh
  tail : zsl'.tail = zsl.tail
  length : zsl'.length = zsl.length
  level : zsl'.level = zsl.level

theorem Framed.refl (zsl : Zskiplist Score) : Framed zsl zsl := ⟨rfl, fun _ => rfl, rfl, rfl, rfl, rfl⟩

theorem Framed.trans {zsl'' : Zskiplist Score} (first : Framed zsl zsl') (second : Framed zsl' zsl'') :
    Framed zsl zsl'' :=
  ⟨second.header.trans first.header, fun pointer => (second.heap pointer).trans (first.heap pointer),
    second.fresh.trans first.fresh, second.tail.trans first.tail, second.length.trans first.length,
    second.level.trans first.level⟩

theorem getElem?_set_of {A : Type} {cells : List A} {old value : A} {j : Nat} (found : cells[i]? = some old) :
    (cells.set i value)[j]? = if j = i then some value else cells[j]? := by
  have inside := (List.getElem?_eq_some_iff.mp found).1
  rw [getElem?_set]
  by_cases same : i = j
  · subst same
    rw [if_pos rfl, if_pos rfl, if_pos inside]
  · rw [if_neg same, if_neg (Ne.symm same)]

theorem writeLevel_spec {old : ZskiplistLevel} (level : ZskiplistLevel) (found : levelAt zsl place i = some old) :
    ∃ zsl', writeLevel zsl place i level = .ok zsl' ∧ Framed zsl zsl' ∧
      ∀ q j, levelAt zsl' q j = if q = place ∧ j = i then some level else levelAt zsl q j := by
  unfold writeLevel
  rw [readLevel_of found]
  cases place with
  | header =>
    refine ⟨_, rfl, ⟨length_set, fun _ => rfl, rfl, rfl, rfl, rfl⟩, fun q j => ?_⟩
    cases q with
    | header => simpa [levelAt] using getElem?_set_of found
    | node pointer => simp [levelAt]
  | node pointer =>
    obtain ⟨node, stored, inside⟩ := Option.bind_eq_some_iff.mp found
    dsimp only
    rw [loadNode_of stored]
    refine ⟨_, rfl, ⟨rfl, fun p => ?_, rfl, rfl, rfl, rfl⟩, fun q j => ?_⟩
    · by_cases same : p = pointer
      · subst same
        simp [storeNode, stored, shape]
      · simp [storeNode, same]
    · cases q with
      | header => simp [levelAt, storeNode]
      | node p =>
        by_cases same : p = pointer
        · subst same
          simpa [levelAt, storeNode, stored] using getElem?_set_of inside
        · simp [levelAt, storeNode, same]

theorem forLevels_rule (start count : Nat) (body : Nat → Zskiplist Score → Checked (Zskiplist Score))
    (invariant : Nat → Zskiplist Score → Prop) (initial : invariant 0 zsl)
    (step : ∀ k zsl, k < count → invariant k zsl → ∃ zsl', body (start + k) zsl = .ok zsl' ∧ invariant (k + 1) zsl') :
    ∃ zsl', forLevels start body count zsl = .ok zsl' ∧ invariant count zsl' := by
  induction count with
  | zero => exact ⟨zsl, rfl, initial⟩
  | succ count ih =>
    obtain ⟨middle, looped, holds⟩ := ih fun k zsl less => step k zsl (Nat.lt_succ_of_lt less)
    obtain ⟨final, stepped, holds'⟩ := step count middle (Nat.lt_succ_self count) holds
    exact ⟨final, by rw [forLevels, looped, ok_bind, stepped], holds'⟩

theorem setBackward_of (backward : Option Nat) (stored : zsl.heap pointer = some node) :
    setBackward zsl pointer backward = .ok (storeNode zsl pointer (some { node with backward := backward })) := by
  rw [setBackward, loadNode_of stored]
  rfl

theorem levelAt_storeNode (node' : ZskiplistNode Score)
    (stored : zsl.heap pointer = some node) (same : node'.level = node.level) (q : Place) (j : Nat) :
    levelAt (storeNode zsl pointer (some node')) q j = levelAt zsl q j := by
  cases q with
  | header => rfl
  | node p =>
    by_cases equal : p = pointer
    · subst equal
      simp [levelAt, storeNode, stored, same]
    · simp [levelAt, storeNode, equal]

/-- The rows of a prefix behind its last node above a level. -/
def lowRows (i : Nat) (before : List (Row Score)) : List (Row Score) :=
  before.drop (lastAbove Row.height i before).length

theorem lowRows_split (i : Nat) (before : List (Row Score)) :
    before = lastAbove Row.height i before ++ lowRows i before ∧ ∀ other ∈ lowRows i before, other.height ≤ i := by
  obtain ⟨low, split, all⟩ := lastAbove_split Row.height i before
  have same : lowRows i before = low := by
    have dropped : List.drop (lastAbove Row.height i before).length (lastAbove Row.height i before ++ low) = low :=
      drop_left
    rwa [← split] at dropped
  rw [same]
  exact ⟨split, all⟩

theorem reach_lastAbove (inside : i < zskiplistMaxlevel) (before : List (Row Score)) :
    i < reach (lastAbove Row.height i before) := le_reach inside (lastAbove_last Row.height i before)

theorem lastAbove_zero (positive : ∀ row ∈ before, 0 < row.height) : lastAbove Row.height 0 before = before := by
  have whole : lastAbove Row.height 0 (before ++ []) = before :=
    lastAbove_eq nofun fun row member => positive row (mem_of_mem_getLast? member)
  rwa [append_nil] at whole

/-- A prefix is the last one above a level, or the last row above the level is behind it. -/
theorem prefix_cases (second : List (Row Score)) (tall : i < reach first) :
    (lastAbove Row.height i (first ++ second) = first ∧ lowRows i (first ++ second) = second) ∨
      ∃ row ∈ (lastAbove Row.height i (first ++ second)).getLast?, row ∈ second ∧ i < row.height := by
  obtain ⟨low, split, all⟩ := lastAbove_split Row.height i second
  have tall' := lastAbove_last Row.height i second
  rcases eq_or_ne (lastAbove Row.height i second) [] with empty | nonempty
  · have same : lastAbove Row.height i (first ++ second) = first := by
      rw [split, empty, nil_append]
      exact lastAbove_eq all (reach_last tall)
    exact .inl ⟨same, by rw [lowRows, same, drop_left]⟩
  · rw [← getLast?_append_of_ne_nil first nonempty] at tall'
    have whole := lastAbove_eq all tall'
    rw [append_assoc, ← split] at whole
    have last := getLast_mem_getLast? nonempty
    have inside : lastAbove Row.height i second <+: second := ⟨low, split.symm⟩
    rw [← getLast?_append_of_ne_nil first nonempty] at last
    exact .inr ⟨_, whole ▸ last, inside.subset (getLast_mem nonempty), tall' _ last⟩

theorem pointerOf_append (before : List (Row Score)) {after : List (Row Score)} (nonempty : after ≠ []) :
    pointerOf (before ++ after) = pointerOf after := by
  rw [pointerOf, getLast?_append_of_ne_nil before nonempty, ← pointerOf]

theorem placeOf_ne_fresh (fresh : ∀ row ∈ before, row.pointer ≠ pointer) : placeOf before ≠ .node pointer := by
  rw [placeOf]
  split
  · simp
  · intro same
    injection same with same
    exact fresh _ (mem_of_getLast? ‹_›) same

/-- The last node of a prefix above a level is not a node outside the prefix. -/
theorem update_ne (other : ∀ row ∈ before, row.pointer ≠ pointer) (j : Nat) :
    placeOf (lastAbove Row.height j before) ≠ .node pointer := by
  refine placeOf_ne_fresh fun row member => other row ?_
  rw [(lowRows_split j before).1]
  exact mem_append_left _ member

theorem Linked.cross (linked : Linked zsl rows) (split : rows = before ++ after) :
    ∀ a ∈ before, ∀ b ∈ after, a.pointer ≠ b.pointer := by
  have distinct := linked.distinct
  rw [split, map_append] at distinct
  intro a first b second
  exact (nodup_append.mp distinct).2.2 _ (mem_map_of_mem first) _ (mem_map_of_mem second)

/-- A row gives the content of its node except for the links. -/
def Row.shape (row : Row Score) (before : List (Row Score)) : Sds × Score × Option Nat × Nat :=
  (row.ele, row.score, pointerOf before, row.height)

theorem Linked.shape (linked : Linked zsl rows) (split : rows = before ++ row :: after) :
    (zsl.heap row.pointer).map SortedSet.shape = some (row.shape before) := by
  obtain ⟨node, stored, ele, score, backward, length⟩ := linked.nodes before row after split
  rw [stored, Option.map_some, SortedSet.shape, Row.shape, ele, score, backward, length]

theorem node_of_shape (stored : (zsl.heap row.pointer).map SortedSet.shape = some (row.shape before)) :
    ∃ node, zsl.heap row.pointer = some node ∧ node.ele = row.ele ∧ node.score = row.score ∧
      node.backward = pointerOf before ∧ node.level.length = row.height := by
  obtain ⟨node, found, same⟩ := Option.map_eq_some_iff.mp stored
  simp only [SortedSet.shape, Row.shape, Prod.mk.injEq] at same
  exact ⟨node, found, same⟩

theorem shape_storeNode (zsl : Zskiplist Score) (pointer q : Nat) (node : Option (ZskiplistNode Score)) :
    ((storeNode zsl pointer node).heap q).map shape =
      if q = pointer then node.map shape else (zsl.heap q).map shape := by
  by_cases same : q = pointer
  · subst same
    simp [storeNode]
  · simp [storeNode, same]

theorem Linked.apart {x : Row Score} (linked : Linked zsl (before ++ x :: after)) :
    ∀ row ∈ before ++ after, row.pointer ≠ x.pointer := by
  intro row member same
  have distinct := linked.distinct
  rw [map_append, map_cons, nodup_middle, ← map_append, nodup_cons] at distinct
  exact distinct.1 (mem_map.mpr ⟨row, member, same⟩)

/-- The next node, or the tail when there is none, points back to the rows before it. -/
structure Relinked (zsl : Zskiplist Score) (before after : List (Row Score)) (zsl' : Zskiplist Score) : Prop where
  levels : ∀ q j, levelAt zsl' q j = levelAt zsl q j
  fields : zsl'.header = zsl.header ∧ zsl'.level = zsl.level ∧ zsl'.fresh = zsl.fresh ∧ zsl'.length = zsl.length
  tail : zsl'.tail = pointerOf (before ++ after)
  next : ∀ row rest, after = row :: rest → (zsl'.heap row.pointer).map shape = some (row.shape before)
  others : ∀ q, (∀ row rest, after = row :: rest → q ≠ row.pointer) → (zsl'.heap q).map shape = (zsl.heap q).map shape

theorem relinked {old : List (Row Score)} (before : List (Row Score)) (tall : ∀ row ∈ after, 0 < row.height)
    (stored : ∀ row rest, after = row :: rest → (zsl.heap row.pointer).map shape = some (row.shape old))
    (tail : after ≠ [] → zsl.tail = pointerOf after) :
    ∃ zsl', (match (link 0 after).forward with
      | some next => setBackward zsl next (pointerOf before)
      | none => return { zsl with tail := pointerOf before }) = .ok zsl' ∧ Relinked zsl before after zsl' := by
  cases after with
  | nil =>
    refine ⟨{ zsl with tail := pointerOf before }, rfl, fun q j => ?_, ⟨rfl, rfl, rfl, rfl⟩, ?_, nofun, fun _ _ => rfl⟩
    · cases q <;> rfl
    · rw [append_nil]
  | cons row rest =>
    obtain ⟨node, found, content⟩ := Option.map_eq_some_iff.mp (stored row rest rfl)
    simp only [shape, Row.shape, Prod.mk.injEq] at content
    have forward : (link 0 (row :: rest)).forward = some row.pointer := by
      rw [link, nextAbove, if_pos (tall row mem_cons_self)]
      rfl
    rw [forward]
    refine ⟨_, setBackward_of _ found, levelAt_storeNode { node with backward := pointerOf before } found rfl,
      ⟨rfl, rfl, rfl, rfl⟩, ?_, ?_, fun q different => ?_⟩
    · exact (tail (cons_ne_nil row rest)).trans (pointerOf_append before (cons_ne_nil row rest)).symm
    · rintro row' rest' same
      cases same
      rw [shape_storeNode]
      simp [shape, Row.shape, content]
    · rw [shape_storeNode, if_neg (different row rest rfl)]

section Replacement
theorem link_low (all : ∀ row ∈ low, row.height ≤ i) (rest : List (Row Score)) :
    link i (low ++ rest) = ⟨(link i rest).forward, low.length + (link i rest).span⟩ := by
  rw [link, nextAbove_low all]
  rfl

theorem link_tall (all : ∀ row ∈ low, row.height ≤ i) (tall : i < row.height)
    (rest : List (Row Score)) : link i (low ++ row :: rest) = ⟨some row.pointer, low.length + 1⟩ := by
  rw [link, nextAbove_tall all tall]
  rfl

theorem link_short (short : row.height ≤ i) (rest : List (Row Score)) :
    link i (row :: rest) = ⟨(link i rest).forward, (link i rest).span + 1⟩ := by
  rw [link, nextAbove, if_neg (by omega)]
  rfl

theorem Linked.update (linked : Linked zsl (before ++ after)) (used : i < zsl.level) :
    levelAt zsl (placeOf (lastAbove Row.height i before)) i = some (link i (lowRows i before ++ after)) := by
  refine linked.links _ _ i ?_ (reach_lastAbove (used.trans_le linked.bounds.2) before) used
  rw [← append_assoc, ← (lowRows_split i before).1]

theorem length_lowRows (i : Nat) (before : List (Row Score)) :
    before.length - (lastAbove Row.height i before).length = (lowRows i before).length := by
  rw [lowRows, length_drop]

variable {old new : Option (Row Score)} {z : Zskiplist Score}

/-- The links when the rows between two parts of the list are replaced on the first levels. -/
def Spliced (zsl : Zskiplist Score) (before : List (Row Score)) (new : Option (Row Score)) (after : List (Row Score))
    (k : Nat) (z : Zskiplist Score) : Prop :=
  ∀ q j, (∀ x ∈ new, q ≠ .node x.pointer) → levelAt z q j =
    if j < k ∧ q = placeOf (lastAbove Row.height j before) then some (link j (lowRows j before ++ (new.toList ++ after)))
    else levelAt zsl q j

theorem Spliced.write {current : ZskiplistLevel} (spliced : Spliced zsl before new after k z)
    (others : ∀ x ∈ new, placeOf (lastAbove Row.height k before) ≠ .node x.pointer)
    (found : levelAt zsl (placeOf (lastAbove Row.height k before)) k = some current) :
    ∃ z', writeLevel z (placeOf (lastAbove Row.height k before)) k (link k (lowRows k before ++ (new.toList ++ after))) =
        .ok z' ∧ readLevel z (placeOf (lastAbove Row.height k before)) k = .ok current ∧ Framed z z' ∧
      Spliced zsl before new after (k + 1) z' ∧
      ∀ x ∈ new, ∀ j, levelAt z' (.node x.pointer) j = levelAt z (.node x.pointer) j := by
  have present : levelAt z (placeOf (lastAbove Row.height k before)) k = some current := by
    rw [spliced _ k others, if_neg (by omega), found]
  obtain ⟨z', written, framed, levels⟩ := writeLevel_spec (link k (lowRows k before ++ (new.toList ++ after))) present
  refine ⟨z', written, readLevel_of present, framed, fun q j apart => ?_, fun x member j => ?_⟩
  · rw [levels, spliced q j apart]
    by_cases same : j = k
    · subst same
      simp
    · have : j < k + 1 ↔ j < k := by omega
      simp only [same, and_false, if_false, this]
  · rw [levels, if_neg fun same => others x member same.1.symm]

theorem replaced_cases (split : before ++ (new.toList ++ after) = first ++ row :: second) :
    (∃ more, before = first ++ row :: more ∧ second = more ++ (new.toList ++ after)) ∨
      (row ∈ new ∧ first = before ∧ second = after) ∨
      ∃ more, after = more ++ row :: second ∧ first = before ++ (new.toList ++ more) := by
  rcases append_eq_append_iff.mp split with ⟨more, rfl, tails⟩ | ⟨_ | ⟨head, more⟩, rfl, tails⟩
  · cases new with
    | none => exact .inr (.inr ⟨more, tails, rfl⟩)
    | some x =>
      rcases more with _ | ⟨head, more⟩
      · cases tails
        exact .inr (.inl ⟨rfl, append_nil before, rfl⟩)
      · cases tails
        exact .inr (.inr ⟨more, rfl, rfl⟩)
  · rw [append_nil]
    cases new with
    | none => exact .inr (.inr ⟨[], tails.symm, (append_nil first).symm⟩)
    | some x =>
      cases tails
      exact .inr (.inl ⟨rfl, rfl, rfl⟩)
  · cases tails
    exact .inl ⟨more, rfl, rfl⟩

theorem Spliced.links (spliced : Spliced zsl before new after zsl.level z)
    (linked : Linked zsl (before ++ (old.toList ++ after))) (apart : ∀ x ∈ new, ∀ row ∈ before ++ after, row.pointer ≠ x.pointer)
    (own : ∀ x ∈ new, ∀ j < x.height, levelAt z (.node x.pointer) j = some (link j after))
    (split : before ++ (new.toList ++ after) = first ++ second) (tall : i < reach first)
    (used : i < zsl.level) : levelAt z (placeOf first) i = some (link i second) := by
  have inside {first more : List (Row Score)} (split : before = first ++ more) (tall : i < reach first) :
      levelAt z (placeOf first) i = some (link i (more ++ (new.toList ++ after))) := by
    subst split
    rw [spliced _ i fun x member => placeOf_ne_fresh fun row present => apart x member row (by simp [present])]
    rcases prefix_cases more tall with ⟨same, low⟩ | ⟨last, same, member, tall'⟩
    · rw [if_pos ⟨used, by rw [same]⟩, low]
    · have other : placeOf first ≠ placeOf (lastAbove Row.height i (first ++ more)) := by
        rw [placeOf_of same]
        exact placeOf_ne_fresh fun row present =>
          linked.cross (append_assoc first more _) row present last (by simp [member])
      rw [if_neg fun same => other same.2, linked.links first (more ++ (old.toList ++ after)) i (by simp) tall used,
        link, link, nextAbove_hides member tall' (old.toList ++ after) (new.toList ++ after)]
  rcases eq_nil_or_concat' first with rfl | ⟨init, last, rfl⟩
  · rw [nil_append] at split
    exact split ▸ inside (nil_append before).symm tall
  rw [append_assoc, singleton_append] at split
  rw [reach_concat] at tall
  rcases replaced_cases split with ⟨more, rfl, rfl⟩ | ⟨member, rfl, rfl⟩ | ⟨more, rfl, rfl⟩
  · exact inside (append_cons init last more) (by rwa [reach_concat])
  · rw [placeOf_concat]
    exact own last member i tall
  · have behind : placeOf (lastAbove Row.height i before) ≠ .node last.pointer :=
      update_ne (fun row present => linked.cross rfl row present last (by simp)) i
    have old := linked.links (before ++ (old.toList ++ more) ++ [last]) second i (by simp) (by rwa [reach_concat]) used
    rw [placeOf_concat] at old
    rw [placeOf_concat, spliced _ i fun x member same => ?_, if_neg fun same => behind same.2.symm, old]
    injection same with same
    exact apart x member last (by simp) same

/-- The list in memory after a row between two parts is replaced and the next node points back to the new one. -/
theorem Linked.replace (linked : Linked zsl (before ++ (old.toList ++ after)))
    (apart : ∀ x ∈ new, ∀ row ∈ before ++ after, row.pointer ≠ x.pointer)
    (spliced : Spliced zsl before new after zsl.level z)
    (own : ∀ x ∈ new, ∀ j < x.height, levelAt z (.node x.pointer) j = some (link j after))
    (node : ∀ x ∈ new, (z.heap x.pointer).map SortedSet.shape = some (x.shape before) ∧ x.pointer < z.fresh ∧
      0 < x.height ∧ x.height ≤ zsl.level)
    (kept : ∀ q, (∀ x ∈ new, q ≠ x.pointer) → (z.heap q).map SortedSet.shape = (zsl.heap q).map SortedSet.shape)
    (fields : z.header.length = zsl.header.length ∧ z.level = zsl.level ∧ zsl.fresh ≤ z.fresh)
    (relinked : Relinked z (before ++ new.toList) after zsl') {length : Nat}
    (count : length = (before ++ (new.toList ++ after)).length) :
    Linked { zsl' with length := length } (before ++ (new.toList ++ after)) := by
  obtain ⟨header, level, fresh, _⟩ := relinked.fields
  have level : zsl'.level = zsl.level := level.trans fields.2.1
  have parts {row : Row Score} (member : row ∈ before ++ (new.toList ++ after)) :
      row ∈ new ∨ row ∈ before ++ (old.toList ++ after) := by
    simp only [mem_append, Option.mem_toList] at member ⊢
    tauto
  have others : ∀ row ∈ before ++ after.tail,
      (zsl'.heap row.pointer).map SortedSet.shape = (zsl.heap row.pointer).map SortedSet.shape := by
    intro row member
    have present : row ∈ before ++ after := by
      simp only [mem_append] at member ⊢
      exact member.imp_right mem_of_mem_tail
    rw [relinked.others row.pointer, kept row.pointer fun x isNew => apart x isNew row present]
    rintro head rest rfl
    rw [← append_assoc] at linked
    exact linked.apart row (by simp only [mem_append, tail_cons] at member ⊢; tauto)
  refine ⟨?_, (congrArg List.length header).trans (fields.1.trans linked.header), ?_, ?_, ?_, ?_, ?_, ?_, ?_, count⟩
  · intro first second i split tall used
    rw [← spliced.links linked apart own split tall (level ▸ used), ← relinked.levels]
    cases placeOf first <;> rfl
  · intro i found above stored
    change zsl'.level ≤ i at above
    have unchanged : levelAt zsl' .header i = levelAt zsl .header i := by
      rw [relinked.levels, spliced .header i nofun, if_neg (by omega)]
    exact linked.unused i found (level ▸ above) (unchanged.symm.trans stored)
  · intro first row second split
    refine (node_of_shape : (zsl'.heap row.pointer).map SortedSet.shape = some (row.shape first) → _) ?_
    rcases replaced_cases split with ⟨more, rfl, rfl⟩ | ⟨member, rfl, rfl⟩ | ⟨_ | ⟨head, more⟩, rfl, rfl⟩
    · rw [others row (by simp)]
      exact linked.shape (append_assoc first (row :: more) _)
    · rw [relinked.others row.pointer fun head rest same => (apart row member head (by simp [same])).symm]
      exact (node row member).1
    · rw [append_nil]
      exact relinked.next row second rfl
    · have earlier : before ++ (old.toList ++ (head :: more ++ row :: second)) =
          (before ++ (old.toList ++ head :: more)) ++ row :: second := by simp
      have behind (middle : List (Row Score)) : pointerOf (before ++ (middle ++ head :: more)) = pointerOf (head :: more) := by
        rw [← append_assoc, pointerOf_append _ (cons_ne_nil head more)]
      rw [others row (by simp), linked.shape earlier, Row.shape, Row.shape, behind, behind]
  · have distinct := linked.distinct
    have rest : ((before ++ after).map Row.pointer).Nodup := distinct.sublist (by simp)
    cases new with
    | none => exact rest
    | some x =>
      change ((before ++ x :: after).map Row.pointer).Nodup
      rw [map_append, map_cons, nodup_middle, ← map_append, nodup_cons, mem_map]
      exact ⟨fun ⟨row, present, same⟩ => apart x rfl row present same, rest⟩
  · intro row member
    change row.pointer < zsl'.fresh
    rw [fresh]
    exact (parts member).elim (fun member => (node row member).2.1) fun member =>
      (linked.fresh row member).trans_le fields.2.2
  · intro row member
    rw [level]
    exact (parts member).elim (fun member => (node row member).2.2) (linked.heights row)
  · change 1 ≤ zsl'.level ∧ zsl'.level ≤ zskiplistMaxlevel
    rw [level]
    exact linked.bounds
  · exact relinked.tail.trans (by rw [append_assoc])
end Replacement

section Insertion
theorem levelAt_zslCreateNode (zsl : Zskiplist Score) (level : Nat) (score : Score) (ele : Sds) (q : Place) (j : Nat) :
    levelAt (zslCreateNode zsl level score ele) q j =
      if q = .node zsl.fresh then (List.replicate level ⟨none, 0⟩)[j]? else levelAt zsl q j := by
  cases q with
  | header => rfl
  | node pointer =>
    by_cases same : pointer = zsl.fresh
    · subst same
      simp [levelAt, zslCreateNode, storeNode]
    · simp [levelAt, zslCreateNode, storeNode, same]

/-- The state when the new node is linked into its first levels. -/
def LinkedUpTo (zsl : Zskiplist Score) (before after : List (Row Score)) (x : Row Score) (k : Nat)
    (zsl' : Zskiplist Score) : Prop :=
  Framed (zslCreateNode zsl x.height x.score x.ele) zsl' ∧ Spliced zsl before (some x) after k zsl' ∧
    ∀ j, levelAt zsl' (.node x.pointer) j = if j < k then some (link j after) else (List.replicate x.height ⟨none, 0⟩)[j]?

section Loops
variable {x : Row Score} (linked : Linked zsl (before ++ after)) (old : ∀ row ∈ before, row.pointer ≠ x.pointer)
include linked old
theorem linkLevel_step (within : x.height ≤ zsl.level) (less : k < x.height)
    (holds : LinkedUpTo zsl before after x k zsl') :
    ∃ zsl'', linkLevel (pathTo zsl.level before) x.pointer k zsl' = .ok zsl'' ∧
      LinkedUpTo zsl before after x (k + 1) zsl'' := by
  obtain ⟨framed, spliced, own⟩ := holds
  have positive : ∀ row ∈ before, 0 < row.height := fun row member => (linked.heights row (by simp [member])).1
  have used : k < zsl.level := less.trans_le within
  obtain ⟨_, low⟩ := lowRows_split k before
  have empty : levelAt zsl' (.node x.pointer) k = some ⟨none, 0⟩ := by
    rw [own, if_neg (lt_irrefl k), getElem?_replicate, if_pos less]
  obtain ⟨_, _, current, _⟩ := spliced.write (by rintro _ ⟨⟩; exact update_ne old k) (linked.update used)
  obtain ⟨z₁, written₁, framed₁, levels₁⟩ := writeLevel_spec (link k after) empty
  have spliced₁ : Spliced zsl before (some x) after k z₁ := fun q j apart => by
    rw [levels₁, if_neg fun same => apart x rfl same.1, spliced q j apart]
  obtain ⟨z₂, written₂, _, framed₂, spliced₂, own₂⟩ :=
    spliced₁.write (by rintro _ ⟨⟩; exact update_ne old k) (linked.update used)
  refine ⟨z₂, ?_, framed.trans (framed₁.trans framed₂), spliced₂, fun j => ?_⟩
  · rw [linkLevel, readCell_pathTo (Nat.zero_lt_of_lt used), ok_bind]
    dsimp only
    rw [readCell_pathTo used, ok_bind]
    rw [current, ok_bind, lastAbove_zero positive, length_lowRows, link_low low]
    rw [Nat.add_sub_cancel_left, written₁, ok_bind, ← written₂]
    exact congrArg _ (link_tall low less after).symm
  · rw [own₂ x rfl, levels₁, own]
    by_cases same : j = k
    · subst same
      simp
    · have : j < k + 1 ↔ j < k := by omega
      simp only [same, and_false, if_false, this]

theorem growSpan_step {z : Zskiplist Score} (above : x.height ≤ k) (used : k < zsl.level)
    (spliced : Spliced zsl before (some x) after k z) :
    ∃ z', growSpan (pathTo zsl.level before) k z = .ok z' ∧ Framed z z' ∧ Spliced zsl before (some x) after (k + 1) z' ∧
      ∀ j, levelAt z' (.node x.pointer) j = levelAt z (.node x.pointer) j := by
  obtain ⟨_, low⟩ := lowRows_split k before
  obtain ⟨z', written, current, framed, spliced', own⟩ :=
    spliced.write (by rintro _ ⟨⟩; exact update_ne old k) (linked.update used)
  refine ⟨z', ?_, framed, spliced', own x rfl⟩
  rw [growSpan, readCell_pathTo used, ok_bind]
  dsimp only
  rw [current, ok_bind, ← written, link_low low, link_low low, Option.toList_some, singleton_append, link_short above,
    Nat.add_assoc]

theorem insertLevels_spec (new : x.pointer = zsl.fresh) (within : x.height ≤ zsl.level) :
    ∃ z₁ z₂, forLevels 0 (linkLevel (pathTo zsl.level before) x.pointer) x.height
        (zslCreateNode zsl x.height x.score x.ele) = .ok z₁ ∧
      forLevels x.height (growSpan (pathTo zsl.level before)) (z₁.level - x.height) z₁ = .ok z₂ ∧
      Framed (zslCreateNode zsl x.height x.score x.ele) z₂ ∧ Spliced zsl before (some x) after zsl.level z₂ ∧
      ∀ j < x.height, levelAt z₂ (.node x.pointer) j = some (link j after) := by
  have start : LinkedUpTo zsl before after x 0 (zslCreateNode zsl x.height x.score x.ele) := by
    refine ⟨.refl _, fun q j apart => ?_, fun j => ?_⟩
    · rw [levelAt_zslCreateNode, if_neg (new ▸ apart x rfl), if_neg (by omega)]
    · rw [levelAt_zslCreateNode, if_pos (by rw [new]), if_neg (by omega)]
  obtain ⟨z₁, looped₁, framed₁, spliced₁, own₁⟩ := forLevels_rule 0 x.height
    (linkLevel (pathTo zsl.level before) x.pointer) (LinkedUpTo zsl before after x) start fun k z less holds => by
      rw [Nat.zero_add]
      exact linkLevel_step linked old within less holds
  have same : z₁.level = zsl.level := framed₁.level
  obtain ⟨z₂, looped₂, framed₂, spliced₂, own₂⟩ := forLevels_rule x.height (zsl.level - x.height)
    (growSpan (pathTo zsl.level before)) (fun k z => Framed z₁ z ∧ Spliced zsl before (some x) after (x.height + k) z ∧
      ∀ j, levelAt z (.node x.pointer) j = levelAt z₁ (.node x.pointer) j) ⟨.refl z₁, spliced₁, fun _ => rfl⟩
    fun k z less ⟨framed, spliced, own⟩ => by
      obtain ⟨z', grown, framed', spliced', own'⟩ :=
        growSpan_step linked old (Nat.le_add_right x.height k) (show x.height + k < zsl.level by omega) spliced
      exact ⟨z', grown, framed.trans framed', spliced', fun j => (own' j).trans (own j)⟩
  rw [Nat.add_sub_cancel' within] at spliced₂
  refine ⟨z₁, z₂, looped₁, by rw [same]; exact looped₂, framed₁.trans framed₂, spliced₂, fun j short => ?_⟩
  rw [own₂, own₁, if_pos short]
end Loops

theorem raiseLevel_spec {level : Nat} (linked : Linked zsl (before ++ after)) (bound : level ≤ zskiplistMaxlevel) :
    ∃ zsl', raiseLevel zsl (pathTo zsl.level before) level = .ok (zsl', pathTo zsl'.level before) ∧
      Linked zsl' (before ++ after) ∧ zsl'.level = max zsl.level level ∧ zsl'.fresh = zsl.fresh := by
  rw [raiseLevel]
  by_cases raises : level > zsl.level
  · rw [if_pos raises]
    have short : ∀ row ∈ before ++ after, row.height ≤ zsl.level := fun row member => (linked.heights row member).2
    obtain ⟨z, looped, framed, levels⟩ := forLevels_rule zsl.level (level - zsl.level)
      (fun i zsl => do writeLevel zsl .header i { (← readLevel zsl .header i) with span := zsl.length })
      (fun k z => Framed zsl z ∧ ∀ q j, levelAt z q j =
        if q = .header ∧ zsl.level ≤ j ∧ j < zsl.level + k then some ⟨none, zsl.length⟩ else levelAt zsl q j)
      ⟨.refl zsl, fun q j => by rw [if_neg (by omega)]⟩ fun k z less ⟨framed, levels⟩ => by
        have inside : zsl.level + k < zsl.header.length := by
          rw [linked.header]
          omega
        have current : levelAt z .header (zsl.level + k) = some (zsl.header.get ⟨_, inside⟩) := by
          rw [levels, if_neg (by omega)]
          exact getElem?_eq_getElem inside
        have unused := linked.unused (zsl.level + k) _ (by omega) (getElem?_eq_getElem inside)
        obtain ⟨z', written, framed', levels'⟩ := writeLevel_spec ⟨none, zsl.length⟩ current
        refine ⟨z', ?_, framed.trans framed', fun q j => ?_⟩
        · rw [readLevel_of current, framed.length, ← written]
          exact congrArg (fun forward => writeLevel z .header (zsl.level + k) ⟨forward, zsl.length⟩) unused
        · rw [levels', levels]
          by_cases same : q = .header
          · subst same
            by_cases equal : j = zsl.level + k
            · rw [if_pos ⟨rfl, equal⟩, if_pos ⟨rfl, by omega, by omega⟩]
            · have : j < zsl.level + (k + 1) ↔ j < zsl.level + k := by omega
              simp only [equal, and_false, if_false, this]
          · simp only [same, false_and, if_false]
    rw [looped]
    have flat : ∀ j, zsl.level ≤ j → link j (before ++ after) = ⟨none, zsl.length⟩ := by
      intro j above
      rw [link, nextAbove_all fun row member => (short row member).trans above, linked.length]
      rfl
    refine ⟨{ z with level := level }, ?_, ?_, by simp only; omega, framed.fresh⟩
    · have whole : pathTo level before = pathTo zsl.level before ++ List.replicate (level - zsl.level) (.header, 0) := by
        rw [pathTo, show level = zsl.level + (level - zsl.level) by omega, range_add, map_append,
          map_map, Nat.add_sub_cancel_left]
        refine congrArg₂ _ rfl (eq_replicate_iff.mpr ⟨by simp, fun entry member => ?_⟩)
        obtain ⟨k, _, rfl⟩ := mem_map.mp member
        have none : lastAbove Row.height (zsl.level + k) ([] ++ before) = [] :=
          lastAbove_eq (fun row present => (short row (by simp [present])).trans (Nat.le_add_right _ _)) (by simp)
        rw [nil_append] at none
        simp [none]
      rw [whole]
      rfl
    · refine ⟨?_, framed.header.trans linked.header, ?_, ?_, linked.distinct, ?_, ?_, ?_, framed.tail.trans linked.tail,
        framed.length.trans linked.length⟩
      · intro first second i split tall used
        change levelAt z (placeOf first) i = _
        rw [levels]
        by_cases known : i < zsl.level
        · rw [if_neg (by omega), linked.links first second i split tall known]
        rcases eq_nil_or_concat' first with rfl | ⟨init, row, rfl⟩
        · rw [nil_append] at split
          rw [if_pos ⟨rfl, by omega, by dsimp only at used; omega⟩, ← split, flat i (by omega)]
        · rw [reach_concat] at tall
          have := short row (by rw [split]; simp)
          omega
      · intro i found above stored
        change level ≤ i at above
        have unchanged : levelAt z .header i = levelAt zsl .header i := by rw [levels, if_neg (by omega)]
        exact linked.unused i found (by omega) (unchanged.symm.trans stored)
      · intro first row second split
        exact node_of_shape ((framed.heap row.pointer).trans (linked.shape split))
      · intro row member
        exact (linked.fresh row member).trans_eq framed.fresh.symm
      · exact fun row member => ⟨(linked.heights row member).1, (short row member).trans raises.le⟩
      · exact ⟨linked.bounds.1.trans raises.le, bound⟩
  · rw [if_neg raises]
    exact ⟨zsl, rfl, linked, by omega, rfl⟩

theorem zslRandomLevel_bounds (draws : Nat) : 0 < zslRandomLevel draws ∧ zslRandomLevel draws ≤ zskiplistMaxlevel := by
  unfold zslRandomLevel zskiplistMaxlevel
  split <;> omega

variable [LinearOrder Score]

/-- The order of a row and a new element. -/
def Row.precedes (row : Row Score) (score : Score) (ele : Sds) : Bool :=
  decide (row.score < score ∨ (row.score = score ∧ sdscmp row.ele ele < 0))

theorem agrees_precedes (score : Score) (ele : Sds) :
    Agrees (fun node _ => precedes node score ele) fun row _ => row.precedes score ele := by
  intro node row rank sameEle sameScore
  simp only [precedes, Row.precedes, sameEle, sameScore]

/-- A search for the place of an element. -/
structure Sought (before after : List (Row Score)) (score : Score) (ele : Sds) : Prop where
  last : ∀ row ∈ before.getLast?, row.precedes score ele = true
  next : ∀ row ∈ after.head?, row.precedes score ele = false

theorem zslInsert_linked (linked : Linked zsl rows) (draws : Nat) (score : Score) (ele : Sds) :
    ∃ before after zsl' x, rows = before ++ after ∧ Sought before after score ele ∧
      zslInsert zsl draws score ele = .ok (zsl', x.pointer) ∧ Linked zsl' (before ++ x :: after) ∧
      x.ele = ele ∧ x.score = score ∧ x.height = zslRandomLevel draws ∧ x.pointer = zsl.fresh ∧
      zsl'.fresh = zsl.fresh + 1 ∧ zsl'.level = max zsl.level x.height := by
  obtain ⟨before, after, rfl, searched, last, next⟩ := search_spec linked (agrees_precedes score ele)
  obtain ⟨positive, bound⟩ := zslRandomLevel_bounds draws
  obtain ⟨zsl₁, raised, linked₁, level₁, fresh₁⟩ := raiseLevel_spec linked bound
  obtain ⟨x, pointer, xele, xscore, height⟩ : ∃ x : Row Score, x.pointer = zsl₁.fresh ∧ x.ele = ele ∧ x.score = score ∧
      x.height = zslRandomLevel draws := ⟨⟨zsl₁.fresh, ele, score, zslRandomLevel draws⟩, rfl, rfl, rfl, rfl⟩
  have within : x.height ≤ zsl₁.level := by omega
  have others : ∀ row ∈ before ++ after, row.pointer ≠ x.pointer := fun row member => by
    have := linked₁.fresh row member
    omega
  obtain ⟨z₁, z₂, linkedUp, grown, framed, spliced, own⟩ :=
    insertLevels_spec linked₁ (fun row member => others row (by simp [member])) pointer within
  have height₀ : 0 < x.height := by omega
  have kept : ∀ q, q ≠ x.pointer → (z₂.heap q).map shape = (zsl₁.heap q).map shape := by
    intro q different
    rw [framed.heap]
    exact (shape_storeNode zsl₁ zsl₁.fresh q _).trans (if_neg (pointer ▸ different))
  have created : (z₂.heap x.pointer).map shape = some (ele, score, none, x.height) := by
    rw [framed.heap, pointer]
    simp [zslCreateNode, storeNode, shape, xele, xscore]
  obtain ⟨node, stored, content⟩ := Option.map_eq_some_iff.mp created
  simp only [shape, Prod.mk.injEq] at content
  obtain ⟨nodeEle, nodeScore, _, nodeLength⟩ := content
  have positions : ∀ row ∈ before, 0 < row.height := fun row member => (linked₁.heights row (by simp [member])).1
  -- the backward pointer of the new node
  obtain ⟨z₃, same₃⟩ : ∃ z₃, z₃ = storeNode z₂ x.pointer (some { node with backward := pointerOf before }) := ⟨_, rfl⟩
  have levels₃ (q : Place) (j : Nat) : levelAt z₃ q j = levelAt z₂ q j := by
    rw [same₃]
    exact levelAt_storeNode { node with backward := pointerOf before } stored rfl q j
  have own₃ : (z₃.heap x.pointer).map shape = some (x.shape before) := by
    rw [same₃, shape_storeNode]
    simp [shape, Row.shape, nodeEle, nodeScore, nodeLength, xele, xscore]
  have kept₃ : ∀ q, q ≠ x.pointer → (z₃.heap q).map shape = (zsl₁.heap q).map shape := by
    intro q different
    rw [same₃, shape_storeNode, if_neg different, kept q different]
  have first : readLevel z₃ (.node x.pointer) 0 = .ok (link 0 after) := by
    refine readLevel_of ?_
    rw [levels₃, own 0 height₀]
  have fields : z₃.header.length = zsl₁.header.length ∧ z₃.level = zsl₁.level ∧ z₃.fresh = zsl₁.fresh + 1 ∧
      z₃.length = zsl₁.length ∧ z₃.tail = zsl₁.tail := by
    rw [same₃]
    exact ⟨framed.header, framed.level, framed.fresh, framed.length, framed.tail⟩
  have steps : zslInsert zsl draws score ele = (do
      let zsl ← (match (link 0 after).forward with
        | some next => setBackward z₃ next (some x.pointer)
        | none => return { z₃ with tail := some x.pointer })
      return ({ zsl with length := zsl.length + 1 }, x.pointer)) := by
    rw [zslInsert, searched, ok_bind]
    dsimp only
    rw [raised, ok_bind]
    rw [← pointer, ← height, ← xele, ← xscore, linkedUp, ok_bind, grown, ok_bind, readCell_pathTo (by omega), ok_bind]
    rewrite [lastAbove_zero positions, placeOf_pointer, setBackward_of _ stored, ok_bind, ← same₃, first, ok_bind]
    rfl
  have behind : after ≠ [] → z₃.tail = pointerOf after := fun nonempty =>
    (fields.2.2.2.2.trans linked₁.tail).trans (pointerOf_append before nonempty)
  obtain ⟨z₄, set₄, relinked₄⟩ := relinked (before ++ [x]) (fun row member => (linked₁.heights row (by simp [member])).1)
    (fun row rest same => (kept₃ row.pointer (others row (by simp [same]))).trans (linked₁.shape (by rw [same]))) behind
  obtain ⟨header, level, fresh, length, _⟩ := fields
  rw [pointerOf_concat] at set₄
  rw [set₄] at steps
  have size : z₄.length + 1 = (before ++ x :: after).length := by
    rw [relinked₄.fields.2.2.2, length, linked₁.length, length_append, length_append, length_cons, Nat.add_assoc]
  refine ⟨before, after, _, x, rfl, ⟨last, next⟩, steps, ?_, xele, xscore, height, pointer.trans fresh₁,
    (relinked₄.fields.2.2.1.trans fresh).trans (by rw [fresh₁]),
    (relinked₄.fields.2.1.trans level).trans (by rw [level₁, height])⟩
  refine @Linked.replace _ zsl₁ z₄ before after none (some x) z₃ linked₁ ?_ (fun q j apart => ?_) ?_ ?_
    (fun q apart => kept₃ q (apart x rfl)) ⟨header, level, by omega⟩ relinked₄ _ size
  · rintro _ ⟨⟩
    exact others
  · rw [levels₃, spliced q j apart]
  · rintro _ ⟨⟩ j short
    rw [levels₃, own j short]
  · rintro _ ⟨⟩
    exact ⟨own₃, by omega, height₀, within⟩
end Insertion
end Redis.SortedSet

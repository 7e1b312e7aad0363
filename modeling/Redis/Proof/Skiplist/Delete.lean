import Redis.Proof.Skiplist.Update

namespace Redis.SortedSet
open Foundation List
variable {Score : Type} {zsl zsl' : Zskiplist Score} {rows before after : List (Row Score)} {row x : Row Score} {i : Nat}

/-- The greatest height in use, at least 1. -/
def topLevel (rows : List (Row Score)) : Nat := (rows.map Row.height).foldr max 1

theorem topLevel_pos (rows : List (Row Score)) : 1 ≤ topLevel rows := by
  induction rows with
  | nil => exact le_rfl
  | cons row rows ih => exact ih.trans (le_max_right _ _)

theorem le_topLevel (member : row ∈ rows) : row.height ≤ topLevel rows := by
  induction rows with
  | nil => cases member
  | cons first rows ih =>
    rcases mem_cons.mp member with rfl | member
    · exact le_max_left _ _
    · exact (ih member).trans (le_max_right _ _)

theorem topLevel_le {bound : Nat} (positive : 1 ≤ bound) (all : ∀ row ∈ rows, row.height ≤ bound) :
    topLevel rows ≤ bound := by
  induction rows with
  | nil => exact positive
  | cons row rows ih =>
    exact max_le (all row mem_cons_self) (ih fun other member => all other (mem_cons_of_mem row member))

/-- The rows are the nodes of the list, and the level is exact. -/
structure Represents (zsl : Zskiplist Score) (rows : List (Row Score)) : Prop extends Linked zsl rows where
  level : zsl.level = topLevel rows

theorem link_forward_none (i : Nat) (rows : List (Row Score)) :
    (link i rows).forward = none ↔ ∀ row ∈ rows, row.height ≤ i := by
  rcases nextAbove_cases Row.height i rows with all | ⟨low, row, rest, rfl, all, tall⟩
  · rw [link, nextAbove_all all]
    exact ⟨fun _ => all, fun _ => rfl⟩
  · rw [link_tall all tall]
    refine ⟨(fun none => by cases none), fun short => ?_⟩
    have := short row (by simp)
    omega

theorem lowerLevel_spec {level : Nat} (header : ∀ i, i < level → readLevel zsl .header i = .ok (link i rows))
    (positive : 1 ≤ level) (all : ∀ row ∈ rows, row.height ≤ level) : lowerLevel zsl level = .ok (topLevel rows) := by
  induction level with
  | zero => omega
  | succ level ih =>
    cases level with
    | zero =>
      rw [lowerLevel, Nat.le_antisymm (topLevel_le le_rfl all) (topLevel_pos rows)]
    | succ level =>
      rw [lowerLevel, header (level + 1) (Nat.lt_succ_self _), ok_bind]
      by_cases unused : (link (level + 1) rows).forward = none
      · rw [if_pos unused]
        exact ih (fun i less => header i (less.trans (Nat.lt_succ_self _))) (by omega)
          ((link_forward_none _ _).mp unused)
      · rw [if_neg unused]
        have tall : ∃ row ∈ rows, level + 1 < row.height := by
          by_contra short
          push Not at short
          exact unused ((link_forward_none _ _).mpr short)
        obtain ⟨row, member, tall⟩ := tall
        have exact : topLevel rows = level + 2 :=
          Nat.le_antisymm (topLevel_le (by omega) all) (tall.trans_le (le_topLevel member))
        rw [exact]
        rfl

theorem Linked.lower (linked : Linked zsl rows) {level : Nat} (positive : 1 ≤ level) (within : level ≤ zsl.level)
    (all : ∀ row ∈ rows, row.height ≤ level) : Linked { zsl with level := level } rows := by
  refine ⟨?_, linked.header, ?_, linked.nodes, linked.distinct, linked.fresh,
    fun row member => ⟨(linked.heights row member).1, all row member⟩, ⟨positive, within.trans linked.bounds.2⟩,
    linked.tail, linked.length⟩
  · intro first second i split tall used
    rw [← linked.links first second i split tall (lt_of_lt_of_le used within)]
    cases placeOf first <;> rfl
  · intro i found above stored
    by_cases used : i < zsl.level
    · have header := linked.links [] rows i rfl (used.trans_le linked.bounds.2) used
      have same : found = link i rows := Option.some.inj (stored.symm.trans header)
      rw [same]
      exact (link_forward_none i rows).mpr fun row member => (all row member).trans above
    · exact linked.unused i found (by omega) stored

section Unlink
variable (linked : Linked zsl (before ++ x :: after))
include linked
theorem Linked.own_level (tall : i < x.height) (used : i < zsl.level) :
    levelAt zsl (.node x.pointer) i = some (link i after) := by
  have own := linked.links (before ++ [x]) after i (by simp) (by rwa [reach_concat]) used
  rwa [placeOf_concat] at own

theorem Linked.next_other (k : Nat) : (link k after).forward ≠ some x.pointer := by
  rcases nextAbove_cases Row.height k after with all | ⟨low, row, rest, rfl, all, tall⟩
  · rw [(link_forward_none k after).mpr all]
    exact nofun
  · rw [link_tall all tall]
    intro same
    exact linked.apart row (by simp) (Option.some.inj same)

theorem unlinkLevel_step {k levels : Nat} (used : k < zsl.level) (enough : k < levels)
    (holds : Framed zsl zsl' ∧ Spliced zsl before none after k zsl') :
    ∃ zsl'', unlinkLevel (pathTo levels before) x.pointer k zsl' = .ok zsl'' ∧
      Framed zsl zsl'' ∧ Spliced zsl before none after (k + 1) zsl'' := by
  obtain ⟨framed, spliced⟩ := holds
  obtain ⟨_, low⟩ := lowRows_split k before
  obtain ⟨z, written, current, framed', spliced', _⟩ := spliced.write nofun (linked.update used)
  rw [Option.toList_none, nil_append] at written
  refine ⟨z, ?_, framed.trans framed', spliced'⟩
  rw [unlinkLevel, readCell_pathTo enough, ok_bind]
  dsimp only
  rw [current, ok_bind, ← written]
  by_cases tall : k < x.height
  · have own : levelAt zsl' (.node x.pointer) k = some (link k after) := by
      rw [spliced _ k nofun, if_neg (by omega), linked.own_level tall used]
    rw [link_tall low tall, link_low low, if_pos rfl, readLevel_of own, ok_bind]
    dsimp only
    congr 2
    omega
  · have other : (link k (lowRows k before ++ x :: after)).forward ≠ some x.pointer := by
      rw [link_low low, link_short (by omega)]
      exact linked.next_other k
    rw [if_neg other, link_low low, link_low low, link_short (by omega)]
    rfl

theorem zslDeleteNode_spec {levels : Nat} (enough : zsl.level ≤ levels) :
    ∃ zsl', zslDeleteNode zsl x.pointer (pathTo levels before) = .ok zsl' ∧ Represents zsl' (before ++ after) ∧
      zsl'.fresh = zsl.fresh := by
  have start : Framed zsl zsl ∧ Spliced zsl before none after 0 zsl :=
    ⟨.refl zsl, fun q j _ => by rw [if_neg (by omega)]⟩
  obtain ⟨z, looped, framed, spliced⟩ := forLevels_rule 0 zsl.level (unlinkLevel (pathTo levels before) x.pointer)
    (fun k z => Framed zsl z ∧ Spliced zsl before none after k z) start fun k z less holds => by
      rw [Nat.zero_add]
      exact unlinkLevel_step linked less (less.trans_le enough) holds
  obtain ⟨node, stored, content⟩ := Option.map_eq_some_iff.mp ((framed.heap x.pointer).trans (linked.shape rfl))
  simp only [shape, Row.shape, Prod.mk.injEq] at content
  have own : levelAt z (.node x.pointer) 0 = some (link 0 after) := by
    have others := update_ne (fun row member => linked.apart row (mem_append_left after member)) 0
    rw [spliced _ 0 (by simp), if_neg fun same => others same.2.symm,
      linked.own_level (linked.heights x (by simp)).1 linked.bounds.1]
  have split : before ++ x :: after = (before ++ [x]) ++ after := by simp
  have tail : after ≠ [] → z.tail = pointerOf after := fun nonempty => by
    rw [framed.tail, linked.tail, split, pointerOf_append _ nonempty]
  obtain ⟨z', set, relinked⟩ := relinked before (fun row member => (linked.heights row (by simp [member])).1)
    (fun row rest same => (framed.heap row.pointer).trans (linked.shape (by rw [split, same]))) tail
  have size : z'.length - 1 = (before ++ after).length := by
    rw [relinked.fields.2.2.2, framed.length, linked.length]
    simp
  have linked' := @Linked.replace _ zsl z' before after (some x) none z linked (by simp) spliced (by simp) (by simp)
    (fun q _ => framed.heap q) ⟨framed.header, framed.level, framed.fresh.ge⟩ (by rwa [Option.toList_none, append_nil]) _ size
  have all : ∀ row ∈ before ++ after, row.height ≤ z'.level := fun row member => (linked'.heights row member).2
  have lowered : lowerLevel z' z'.level = .ok (topLevel (before ++ after)) :=
    lowerLevel_spec (fun i used => readLevel_of (linked'.links [] (before ++ after) i rfl
      (lt_of_lt_of_le used linked'.bounds.2) used)) linked'.bounds.1 all
  refine ⟨{ z' with level := topLevel (before ++ after), length := z'.length - 1 }, ?_,
    ⟨linked'.lower (topLevel_pos _) (topLevel_le linked'.bounds.1 all) fun row member => le_topLevel member, rfl⟩,
    relinked.fields.2.2.1.trans framed.fresh⟩
  rw [zslDeleteNode, looped, ok_bind, loadNode_of stored, ok_bind]
  rewrite [readLevel_of own, ok_bind, content.2.2.1]
  refine (congrArg (· >>= _) set).trans ?_
  rw [ok_bind, lowered]
  rfl
end Unlink
end Redis.SortedSet

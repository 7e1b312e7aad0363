import Redis.Proof.Rax.Tree

namespace Redis.Radix
open Foundation List
variable {V : Type} {h head : RaxNode V} {ts : List (Frame V)} {key : List UInt8} {v : Option V}

theorem matchLength_le (vs cs : List UInt8) : matchLength vs cs ≤ vs.length := by
  fun_induction matchLength vs cs with
  | case1 vs c cs ih => simpa using ih
  | case2 => exact Nat.zero_le _
  | case3 => exact Nat.zero_le _

theorem matchLength_take (vs cs : List UInt8) : vs.take (matchLength vs cs) ++ cs.drop (matchLength vs cs) = cs := by
  fun_induction matchLength vs cs with
  | case1 vs c cs ih => rw [take_succ_cons, drop_succ_cons, cons_append, ih]
  | case2 => rfl
  | case3 => rfl

/-- A partial match ends with the key or at a different byte. -/
theorem matchLength_stop {vs cs : List UInt8} (short : matchLength vs cs < vs.length) :
    cs.drop (matchLength vs cs) = [] ∨
      ∃ d c rest, vs[matchLength vs cs]? = some d ∧ cs.drop (matchLength vs cs) = c :: rest ∧ d ≠ c := by
  fun_induction matchLength vs cs with
  | case1 vs c cs ih =>
    exact ih (by simpa using short)
  | case2 v vs c cs different => exact .inr ⟨v, c, cs, rfl, rfl, different⟩
  | case3 vs cs other =>
    cases vs with
    | nil => simp at short
    | cons v vs =>
      cases cs with
      | nil => exact .inl rfl
      | cons c cs => exact (other v vs c cs rfl rfl).elim

/-- Why a walk stops at a node. -/
inductive Stop (h : RaxNode V) : Nat → List UInt8 → Prop where
  | node : Stop h 0 []
  | inside {j : Nat} (compressed : h.iscompr = true) (positive : 0 < j) (short : j < h.data.length) : Stop h j []
  | mismatch {j : Nat} {c d : UInt8} {cs : List UInt8} (compressed : h.iscompr = true)
      (letter : h.data[j]? = some d) (different : d ≠ c) : Stop h j (c :: cs)
  | missing {c : UInt8} {cs : List UInt8} (plain : h.iscompr = false) (absent : c ∉ h.data) : Stop h 0 (c :: cs)

/-- The walk for a key ends at the node where the key belongs. -/
structure Arrived (head : RaxNode V) (key : List UInt8) (walk : Walk V) : Prop where
  plugged : plug walk.ts walk.stopnode = head
  frames : FramesOk walk.ts
  valid : Valid walk.stopnode
  leaf : walk.ts ≠ [] → walk.stopnode.children = [] → walk.stopnode.iskey = true
  key : key = path walk.ts ++ (walk.stopnode.data.take walk.splitpos ++ walk.rest)
  stop : Stop walk.stopnode walk.splitpos walk.rest

theorem frameOk_of_valid (valid : Valid h) {j : Nat} (inside : j < h.children.length) : FrameOk ⟨h, j⟩ where
  fields := valid.fields
  inside := inside
  subtrees _ _ _ found := valid.child (mem_of_getElem? found)
  leaves _ _ _ found := valid.leaf (mem_of_getElem? found)

theorem plug_self {j : Nat} {child : RaxNode V} (found : h.children[j]? = some child) :
    Frame.plug ⟨h, j⟩ child = h := by
  obtain ⟨inside, rfl⟩ := List.getElem?_eq_some_iff.mp found
  simp only [Frame.plug, set_getElem_self]
  cases h
  rfl

theorem framesOk_cons {frame : Frame V} (ok : FrameOk frame) (frames : FramesOk ts) : FramesOk (frame :: ts) :=
  forall_mem_cons.mpr ⟨ok, frames⟩

theorem raxLowWalk_spec {fuel : Nat} (plugged : plug ts h = head) (frames : FramesOk ts) (valid : Valid h)
    (leaf : ts ≠ [] → h.children = [] → h.iskey = true) (enough : key.length ≤ fuel) :
    ∃ walk, raxLowWalk fuel h key ts = .ok walk ∧ Arrived head (path ts ++ key) walk := by
  induction fuel generalizing h ts key with
  | zero =>
    obtain rfl : key = [] := length_eq_zero_iff.mp (by omega)
    exact ⟨⟨[], h, 0, ts⟩, by rw [raxLowWalk], plugged, frames, valid, leaf, rfl, .node⟩
  | succ fuel ih =>
    cases key with
    | nil => exact ⟨⟨[], h, 0, ts⟩, by rw [raxLowWalk], plugged, frames, valid, leaf, rfl, .node⟩
    | cons c cs =>
      rw [raxLowWalk]
      by_cases bare : h.size = 0
      · rw [if_pos bare]
        have empty : h.data = [] := length_eq_zero_iff.mp bare
        have plain : h.iscompr = false := by
          cases compressed : h.iscompr with
          | true => simpa [empty] using (valid.fields.compressed compressed).1
          | false => rfl
        exact ⟨_, rfl, plugged, frames, valid, leaf, rfl, .missing plain (by simp [empty])⟩
      rw [if_neg bare]
      have descend {j : Nat} {child : RaxNode V} {cs' : List UInt8} (found : h.children[j]? = some child)
          (shorter : cs'.length ≤ fuel) : ∃ walk, raxLowWalk fuel child cs' (⟨h, j⟩ :: ts) = .ok walk ∧
            Arrived head (path (⟨h, j⟩ :: ts) ++ cs') walk := by
        have member := mem_of_getElem? found
        exact ih (by rw [plug, plug_self found, plugged])
          (framesOk_cons (frameOk_of_valid valid (List.getElem?_eq_some_iff.mp found).1) frames)
          (valid.child member) (fun _ => valid.leaf member) shorter
      cases compressed : h.iscompr with
      | true =>
        have bound := matchLength_le h.data (c :: cs)
        have whole := matchLength_take h.data (c :: cs)
        by_cases partly : matchLength h.data (c :: cs) ≠ h.size
        · rw [if_pos partly]
          have short : matchLength h.data (c :: cs) < h.data.length := lt_of_le_of_ne bound partly
          refine ⟨_, rfl, plugged, frames, valid, leaf, by rw [whole], ?_⟩
          rcases matchLength_stop short with ended | ⟨d, c', rest, letter, remains, different⟩
          · have positive : 0 < matchLength h.data (c :: cs) := by
              rcases Nat.eq_zero_or_pos (matchLength h.data (c :: cs)) with none | positive
              · simp [none] at ended
              · exact positive
            rw [ended]
            exact .inside compressed positive short
          · dsimp only
            rw [remains]
            exact .mismatch compressed letter different
        · have full : matchLength h.data (c :: cs) = h.data.length := not_not.mp partly
          obtain ⟨long, single⟩ := valid.fields.compressed compressed
          obtain ⟨child, only⟩ := length_eq_one_iff.mp single
          have found : h.children[0]? = some child := by rw [only]; rfl
          rw [full, take_length] at whole
          rw [if_neg partly, full, readCell_of found]
          obtain ⟨walk, walked, arrived⟩ := descend found
            (show ((c :: cs).drop h.data.length).length ≤ fuel by rw [length_drop]; omega)
          refine ⟨walk, walked, ?_⟩
          rwa [path, Frame.label, Local.label_compressed compressed, append_assoc, whole] at arrived
      | false =>
        obtain ⟨lengths, sorted⟩ := valid.fields.plain compressed
        by_cases absent : h.data.findIdx (· = c) = h.size
        · rw [if_pos absent]
          refine ⟨_, rfl, plugged, frames, valid, leaf, rfl, .missing compressed fun member => ?_⟩
          have found := findIdx_lt_length_of_exists (p := (· = c)) ⟨c, member, by simp⟩
          exact absurd absent (ne_of_lt found)
        · have inside : h.data.findIdx (· = c) < h.data.length :=
            lt_of_le_of_ne findIdx_le_length absent
          have letter : h.data[h.data.findIdx (· = c)] = c := by
            simpa using findIdx_getElem (w := inside)
          have within : h.data.findIdx (· = c) < h.children.length := by omega
          have found := getElem?_eq_getElem within
          rw [if_neg absent, readCell_of found]
          obtain ⟨walk, walked, arrived⟩ := descend found (show cs.length ≤ fuel by simpa using enough)
          refine ⟨walk, walked, ?_⟩
          obtain ⟨c', stored, label⟩ := valid.fields.label_plain compressed within
          rw [getElem?_eq_getElem inside, letter] at stored
          cases stored
          rwa [path, Frame.label, label, append_assoc] at arrived

theorem raxLowWalk_head (valid : Valid head) (key : List UInt8) :
    ∃ walk, raxLowWalk key.length head key [] = .ok walk ∧ Arrived head key walk :=
  raxLowWalk_spec rfl (fun _ member => by cases member) valid (fun some => absurd rfl some) le_rfl

theorem raxGetData_eq (fields : Local h) (iskey : h.iskey = true) : raxGetData h = .ok h.value := by
  rw [raxGetData, RaxNode.value]
  cases null : h.isnull with
  | true => rfl
  | false =>
    obtain ⟨value, stored⟩ := Option.isSome_iff_exists.mp (fields.valued iskey null)
    rw [stored]
    rfl

theorem maps_stop_iff (valid : Valid h) {j : Nat} {rest : List UInt8} (stop : Stop h j rest) :
    Maps h (h.data.take j ++ rest) v ↔ rest = [] ∧ j = 0 ∧ h.iskey = true ∧ h.value = v := by
  cases stop with
  | node => simp [maps_nil_iff valid.fields]
  | inside compressed positive short =>
    refine iff_of_false ?_ fun all => positive.ne' all.2.1
    rw [maps_iff]
    rintro (⟨empty, _⟩ | ⟨i, child, rest, found, same, _⟩)
    · have lengths := congrArg List.length empty
      rw [append_nil, length_take, length_nil] at lengths
      omega
    · rw [Local.label_compressed compressed] at same
      have lengths := congrArg List.length same
      simp at lengths
      omega
  | @mismatch j c d cs compressed letter different =>
    refine iff_of_false ?_ fun all => cons_ne_nil c cs all.1
    rw [maps_iff]
    rintro (⟨empty, _⟩ | ⟨i, child, rest, found, same, _⟩)
    · simp at empty
    · rw [Local.label_compressed compressed] at same
      obtain ⟨inside, stored⟩ := List.getElem?_eq_some_iff.mp letter
      have bytes := congrArg (·[j]?) same
      rw [getElem?_append_left inside, letter] at bytes
      simp [Nat.min_eq_left inside.le] at bytes
      exact absurd bytes.symm different
  | @missing c cs plain absent =>
    refine iff_of_false ?_ fun all => cons_ne_nil c cs all.1
    rw [maps_iff]
    rintro (⟨empty, _⟩ | ⟨i, child, rest, found, same, _⟩)
    · simp at empty
    · obtain ⟨inside, _⟩ := List.getElem?_eq_some_iff.mp found
      obtain ⟨c', stored, label⟩ := valid.fields.label_plain plain inside
      rw [label, take_zero, nil_append, singleton_append, List.cons.injEq] at same
      rw [same.1] at absent
      exact absurd (mem_of_getElem? stored) absent

theorem Arrived.maps_iff {walk : Walk V} (arrived : Arrived head key walk) :
    Maps head key v ↔ walk.rest = [] ∧ walk.splitpos = 0 ∧ walk.stopnode.iskey = true ∧ walk.stopnode.value = v := by
  rw [← maps_stop_iff arrived.valid arrived.stop, ← arrived.plugged, arrived.key]
  exact maps_plug_path arrived.frames

theorem Stop.notFound_iff {j : Nat} {rest : List UInt8} (stop : Stop h j rest) :
    (rest ≠ [] ∨ (h.iscompr = true ∧ j ≠ 0) ∨ ¬ h.iskey = true) ↔ ¬ (rest = [] ∧ j = 0 ∧ h.iskey = true) := by
  cases stop with
  | node => simp
  | inside compressed positive short => simp [compressed, positive.ne']
  | mismatch => simp
  | missing => simp

theorem raxFind_spec {rax : Rax V} (valid : Valid rax.head) (key : List UInt8) :
    ∃ result, raxFind rax key = .ok result ∧ ∀ v, result = some v ↔ Maps rax.head key v := by
  obtain ⟨walk, walked, arrived⟩ := raxLowWalk_head valid key
  rw [raxFind, walked, ok_bind]
  by_cases found : walk.rest = [] ∧ walk.splitpos = 0 ∧ walk.stopnode.iskey = true
  · rw [if_neg (fun missing => arrived.stop.notFound_iff.mp missing found),
      raxGetData_eq arrived.valid.fields found.2.2]
    refine ⟨_, rfl, fun v => ?_⟩
    rw [arrived.maps_iff, Option.some.injEq]
    exact ⟨fun same => ⟨found.1, found.2.1, found.2.2, same⟩, fun all => all.2.2.2⟩
  · rw [if_pos (arrived.stop.notFound_iff.mpr found)]
    refine ⟨none, rfl, fun v => ⟨fun same => (by cases same), fun maps => ?_⟩⟩
    obtain ⟨ended, zero, iskey, _⟩ := arrived.maps_iff.mp maps
    exact absurd ⟨ended, zero, iskey⟩ found

end Redis.Radix

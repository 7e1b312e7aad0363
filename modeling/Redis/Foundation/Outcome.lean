import Mathlib.Tactic

namespace Foundation

variable {E A B : Type} {allowed : E → Prop} {post : A → Prop} {computation : Except E A} {next : A → Except E B}

/-- A computation meets its postcondition or stops with an allowed error. -/
def Outcome (computation : Except E A) (allowed : E → Prop) (post : A → Prop) : Prop :=
  match computation with
  | .ok value => post value
  | .error error => allowed error

instance (computation : Except E A) (allowed : E → Prop) (post : A → Prop) [DecidablePred allowed]
    [DecidablePred post] : Decidable (Outcome computation allowed post) :=
  match computation with
  | .ok value => inferInstanceAs (Decidable (post value))
  | .error error => inferInstanceAs (Decidable (allowed error))

@[simp] theorem outcome_ok (value : A) (allowed : E → Prop) (post : A → Prop) :
    Outcome (.ok value) allowed post ↔ post value := Iff.rfl

@[simp] theorem outcome_pure (value : A) (allowed : E → Prop) (post : A → Prop) :
    Outcome (pure value) allowed post ↔ post value := Iff.rfl

@[simp] theorem ok_bind (value : A) (next : A → Except E B) : (Except.ok value >>= next) = next value := rfl

theorem exists_of_bind_eq_ok {result : B}
    (returned : (computation >>= next) = .ok result) : ∃ value, computation = .ok value ∧ next value = .ok result := by
  cases computation with
  | ok value => exact ⟨value, rfl, returned⟩
  | error error => cases returned

theorem outcome_any (computation : Except E A) : Outcome computation (fun _ => True) fun _ => True := by
  cases computation <;> trivial

theorem Outcome.mono {weaker : A → Prop}
    (outcome : Outcome computation allowed post) (implies : ∀ value, post value → weaker value) :
    Outcome computation allowed weaker := by
  cases computation with
  | ok value => exact implies value outcome
  | error error => exact outcome

theorem Outcome.bind {middle : A → Prop} {post : B → Prop} (first : Outcome computation allowed middle)
    (second : ∀ value, middle value → Outcome (next value) allowed post) :
    Outcome (computation >>= next) allowed post := by
  cases computation with
  | ok value => exact second value first
  | error error => exact first

theorem Outcome.of_ok {value : A} (outcome : Outcome computation allowed post)
    (finished : computation = .ok value) : post value := by
  subst finished
  exact outcome

theorem Outcome.of_error {error : E} (outcome : Outcome computation allowed post)
    (stopped : computation = .error error) : allowed error := by
  subst stopped
  exact outcome

theorem Outcome.exists_ok (outcome : Outcome computation (fun _ => False) post) :
    ∃ value, computation = .ok value ∧ post value := by
  cases computation with
  | ok value => exact ⟨value, rfl, outcome⟩
  | error error => exact outcome.elim

section Run
variable {State Spec Op Out : Type}

/-- A run feeds the operations to the step function in order. -/
def run (step : State → Op → Except E (State × Out)) : State → List Op → Except E (State × List Out)
  | state, [] => .ok (state, [])
  | state, op :: ops => do
      let (next, out) ← step state op
      let (final, outs) ← run step next ops
      return (final, out :: outs)

/-- The abstract run has the same shape and never stops. -/
def specRun (step : Spec → Op → Spec × Out) : Spec → List Op → Spec × List Out
  | spec, [] => (spec, [])
  | spec, op :: ops =>
    let next := step spec op
    let rest := specRun step next.1 ops
    (rest.1, next.2 :: rest.2)

/-- Every step of the run meets a condition on its start state and its operation. -/
def Guarded (step : State → Op → Except E (State × Out)) (guard : State → Op → Prop) : State → List Op → Prop
  | _, [] => True
  | state, op :: ops => guard state op ∧ ∀ next out, step state op = .ok (next, out) → Guarded step guard next ops

instance decidableGuarded (step : State → Op → Except E (State × Out)) (guard : State → Op → Prop)
    [∀ state op, Decidable (guard state op)] (state : State) (ops : List Op) :
    Decidable (Guarded step guard state ops) :=
  match ops with
  | [] => .isTrue trivial
  | op :: ops =>
    match stepped : step state op with
    | .error error => decidable_of_iff (guard state op) (by simp [Guarded, stepped])
    | .ok (next, out) =>
      have := decidableGuarded step guard next ops
      decidable_of_iff (guard state op ∧ Guarded step guard next ops) (by simp [Guarded, stepped])

variable {step : State → Op → Except E (State × Out)} {guard : State → Op → Prop} {state : State} {ops : List Op}
  {relation : State → Spec → Prop} {invariant : State → Prop} {before after : List Op} {outs : List Out}

theorem Guarded.and {guard' : State → Op → Prop} (first : Guarded step guard state ops)
    (second : Guarded step guard' state ops) :
    Guarded step (fun state op => guard state op ∧ guard' state op) state ops := by
  induction ops generalizing state with
  | nil => trivial
  | cons op ops ih =>
    exact ⟨⟨first.1, second.1⟩, fun next out stepped => ih (first.2 next out stepped) (second.2 next out stepped)⟩

theorem run_append {middle final : State} {outs' : List Out} (first : run step state before = .ok (middle, outs))
    (second : run step middle after = .ok (final, outs')) :
    run step state (before ++ after) = .ok (final, outs ++ outs') := by
  induction before generalizing state outs with
  | nil =>
    cases first
    exact second
  | cons op before ih =>
    obtain ⟨⟨next, out⟩, stepped, first⟩ := exists_of_bind_eq_ok first
    obtain ⟨ended, rest, first⟩ := exists_of_bind_eq_ok first
    cases first
    rw [List.cons_append, run, stepped, ok_bind]
    dsimp only
    rw [ih rest]
    rfl

theorem specRun_append (step : Spec → Op → Spec × Out) (spec : Spec) (before after : List Op) :
    specRun step spec (before ++ after) = ((specRun step (specRun step spec before).1 after).1,
        (specRun step spec before).2 ++ (specRun step (specRun step spec before).1 after).2) := by
  induction before generalizing spec with
  | nil => rfl
  | cons op before ih => simp only [List.cons_append, specRun, ih]

theorem guarded_append (guarded : Guarded step guard state (before ++ after)) :
    Guarded step guard state before ∧ ∀ middle outs, run step state before = .ok (middle, outs) →
      Guarded step guard middle after := by
  induction before generalizing state with
  | nil =>
    refine ⟨trivial, ?_⟩
    rintro middle outs finished
    cases finished
    exact guarded
  | cons op before ih =>
    refine ⟨⟨guarded.1, fun next out stepped => (ih (guarded.2 next out stepped)).1⟩, ?_⟩
    intro middle outs finished
    obtain ⟨next, stepped, finished⟩ := exists_of_bind_eq_ok finished
    obtain ⟨ended, rest, finished⟩ := exists_of_bind_eq_ok finished
    cases finished
    exact (ih (guarded.2 _ _ stepped)).2 _ _ rest

theorem run_refines {specStep : Spec → Op → Spec × Out}
    (simulates : ∀ state spec op, relation state spec → guard state op → Outcome (step state op) allowed fun result =>
        relation result.1 (specStep spec op).1 ∧ result.2 = (specStep spec op).2)
    (ops : List Op) (state : State) (spec : Spec) (related : relation state spec)
    (guarded : Guarded step guard state ops) :
    Outcome (run step state ops) allowed fun result =>
      relation result.1 (specRun specStep spec ops).1 ∧ result.2 = (specRun specStep spec ops).2 := by
  induction ops generalizing state spec with
  | nil => exact ⟨related, rfl⟩
  | cons op ops ih =>
    have first := simulates state spec op related guarded.1
    simp only [run]
    cases stepped : step state op with
    | error error => exact first.of_error stepped
    | ok result =>
      obtain ⟨related', same⟩ := first.of_ok stepped
      refine (ih result.1 _ related' (guarded.2 _ _ stepped)).bind fun rest post => ?_
      exact ⟨post.1, by simp only [specRun, same, post.2]⟩

/-- An abstract run whose steps can have several results. -/
def SpecRuns (specStep : Spec → Op → Spec × Out → Prop) : Spec → List Op → Spec × List Out → Prop
  | spec, [], result => result = (spec, [])
  | spec, op :: ops, result => ∃ next out final outs, specStep spec op (next, out) ∧
      SpecRuns specStep next ops (final, outs) ∧ result = (final, out :: outs)

theorem SpecRuns.split {specStep : Spec → Op → Spec × Out → Prop} {spec final : Spec}
    (runs : SpecRuns specStep spec (before ++ after) (final, outs)) :
    ∃ middle first second, SpecRuns specStep spec before (middle, first) ∧
      SpecRuns specStep middle after (final, second) ∧ outs = first ++ second := by
  induction before generalizing spec outs with
  | nil => exact ⟨spec, [], outs, rfl, runs, rfl⟩
  | cons op before ih =>
    obtain ⟨next, out, final', outs', stepped, rest, same⟩ := runs
    cases same
    obtain ⟨middle, first, second, runs, runs', rfl⟩ := ih rest
    exact ⟨middle, out :: first, second, ⟨next, out, middle, first, stepped, runs, rfl⟩, runs', rfl⟩

/-- A simulated step gives a simulated run, when the abstract step can choose its result. -/
theorem run_refines_choice {specStep : Spec → Op → Spec × Out → Prop} (relation : State → Spec → Prop)
    (simulates : ∀ state spec op, relation state spec → guard state op → Outcome (step state op) allowed fun result =>
        ∃ next, specStep spec op (next, result.2) ∧ relation result.1 next)
    (ops : List Op) (state : State) (spec : Spec) (related : relation state spec)
    (guarded : Guarded step guard state ops) :
    Outcome (run step state ops) allowed fun result =>
      ∃ final, SpecRuns specStep spec ops (final, result.2) ∧ relation result.1 final := by
  induction ops generalizing state spec with
  | nil => exact ⟨spec, rfl, related⟩
  | cons op ops ih =>
    have first := simulates state spec op related guarded.1
    simp only [run]
    cases stepped : step state op with
    | error error => exact first.of_error stepped
    | ok result =>
      obtain ⟨next, taken, related'⟩ := first.of_ok stepped
      refine (ih result.1 next related' (guarded.2 _ _ stepped)).bind fun rest ⟨final, runs, ended⟩ => ?_
      exact ⟨final, ⟨next, result.2, final, rest.2, taken, runs, rfl⟩, ended⟩

theorem guarded_true (step : State → Op → Except E (State × Out)) (state : State)
    (ops : List Op) : Guarded step (fun _ _ => True) state ops := by
  induction ops generalizing state with
  | nil => trivial
  | cons op ops ih => exact ⟨trivial, fun next _ _ => ih next⟩

theorem run_simulates {specStep : Spec → Op → Spec × Out} (simulates : ∀ state spec op, relation state spec →
      Outcome (step state op) allowed fun result =>
        relation result.1 (specStep spec op).1 ∧ result.2 = (specStep spec op).2)
    (ops : List Op) (state : State) (spec : Spec) (related : relation state spec) :
    Outcome (run step state ops) allowed fun result =>
      relation result.1 (specRun specStep spec ops).1 ∧ result.2 = (specRun specStep spec ops).2 :=
  run_refines (fun state spec op holds _ => simulates state spec op holds) ops state spec related
    (guarded_true step state ops)

theorem run_invariant_outputs (good : Out → Prop) (preserves : ∀ state op, invariant state → guard state op →
      Outcome (step state op) allowed fun result => invariant result.1 ∧ good result.2)
    (ops : List Op) (state : State) (holds : invariant state) (guarded : Guarded step guard state ops) :
    Outcome (run step state ops) allowed fun result => invariant result.1 ∧ ∀ out ∈ result.2, good out := by
  induction ops generalizing state with
  | nil => exact ⟨holds, fun _ member => absurd member List.not_mem_nil⟩
  | cons op ops ih =>
    have first := preserves state op holds guarded.1
    simp only [run]
    cases stepped : step state op with
    | error error => exact first.of_error stepped
    | ok result =>
      obtain ⟨holds', good'⟩ := first.of_ok stepped
      apply (ih result.1 holds' (guarded.2 _ _ stepped)).bind
      intro rest post
      refine ⟨post.1, ?_⟩
      intro out member
      rcases List.mem_cons.mp member with rfl | later
      · exact good'
      · exact post.2 out later

theorem run_invariant (preserves : ∀ state op, invariant state → guard state op →
      Outcome (step state op) allowed fun result => invariant result.1)
    (ops : List Op) (state : State) (holds : invariant state) (guarded : Guarded step guard state ops) :
    Outcome (run step state ops) allowed fun result => invariant result.1 := by
  apply (run_invariant_outputs (fun _ => True) _ ops state holds guarded).mono fun _ post => post.1
  exact fun state op holds permitted => (preserves state op holds permitted).mono fun _ kept => ⟨kept, trivial⟩
end Run
end Foundation

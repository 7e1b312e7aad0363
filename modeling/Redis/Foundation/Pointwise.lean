import Mathlib.Tactic

namespace Foundation

variable {A B : Type} {relation : A → B → Prop} {xs : List A} {ys : List B}

theorem forall₂_getElem? (related : List.Forall₂ relation xs ys) (index : Nat) :
    (xs[index]? = none ∧ ys[index]? = none) ∨ ∃ x y, xs[index]? = some x ∧ ys[index]? = some y ∧ relation x y := by
  induction related generalizing index with
  | nil => exact .inl ⟨rfl, rfl⟩
  | cons head _ ih =>
    cases index with
    | zero => exact .inr ⟨_, _, rfl, rfl, head⟩
    | succ index => simpa only [List.getElem?_cons_succ] using ih index

theorem forall₂_set (related : List.Forall₂ relation xs ys) (index : Nat) {x : A} {y : B}
    (holds : relation x y) : List.Forall₂ relation (xs.set index x) (ys.set index y) := by
  induction related generalizing index with
  | nil => exact .nil
  | cons head tail ih =>
    cases index with
    | zero => exact .cons holds tail
    | succ index => exact .cons head (ih index)

theorem forall₂_eraseIdx (related : List.Forall₂ relation xs ys) (index : Nat) :
    List.Forall₂ relation (xs.eraseIdx index) (ys.eraseIdx index) := by
  induction related generalizing index with
  | nil => exact .nil
  | cons head tail ih =>
    cases index with
    | zero => exact tail
    | succ index => exact .cons head (ih index)

theorem forall₂_trans {C : Type} {second : B → C → Prop} {both : A → C → Prop} {zs : List C}
    (compose : ∀ x y z, relation x y → second y z → both x z) (first : List.Forall₂ relation xs ys)
    (rest : List.Forall₂ second ys zs) : List.Forall₂ both xs zs := by
  induction first generalizing zs with
  | nil =>
    cases rest
    exact .nil
  | cons head _ ih =>
    cases rest with
    | cons head' tail' => exact .cons (compose _ _ _ head head') (ih tail')

end Foundation

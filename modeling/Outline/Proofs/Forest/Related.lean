import Mathlib.Data.List.Forall2
import Outline.Forest.Walk

/-!
# Related lists

What walks and steps do with lists of nodes keeps a relation between two lists that holds place
by place.
-/

namespace Outline

open List

variable {α β : Type} {R : α → β → Prop} {l : List α} {l' : List β} {x : α} {y : β}

/-! ## Options -/

theorem rel_option_cases {o : Option α} {o' : Option β} (h : Option.Rel R o o') :
    (o = none ∧ o' = none) ∨ ∃ x y, o = some x ∧ o' = some y ∧ R x y := by
  cases h with
  | none => exact .inl ⟨rfl, rfl⟩
  | some hx => exact .inr ⟨_, _, rfl, rfl, hx⟩

theorem rel_toList {o : Option α} {o' : Option β} (h : Option.Rel R o o') :
    Forall₂ R o.toList o'.toList := by
  cases h with
  | none => exact .nil
  | some hx => exact .cons hx .nil

theorem rel_orElse {o : Option α} {o' : Option β} {alt : Unit → Option α} {alt' : Unit → Option β}
    (h : Option.Rel R o o') (halt : Option.Rel R (alt ()) (alt' ())) :
    Option.Rel R (o.orElse alt) (o'.orElse alt') := by
  cases h with
  | none => exact halt
  | some hx => exact .some hx

/-! ## Lists -/

theorem rel_getElem? (h : Forall₂ R l l') (i : Nat) : Option.Rel R l[i]? l'[i]? := by
  induction h generalizing i with
  | nil => exact .none
  | cons hx _ ih =>
    cases i with
    | zero => exact .some hx
    | succ i => exact ih i

theorem rel_head? (h : Forall₂ R l l') : Option.Rel R l.head? l'.head? := by
  cases h with
  | nil => exact .none
  | cons hx _ => exact .some hx

theorem rel_getLast? (h : Forall₂ R l l') : Option.Rel R l.getLast? l'.getLast? := by
  rw [getLast?_eq_getElem?, getLast?_eq_getElem?, h.length_eq]
  exact rel_getElem? h _

theorem rel_idxOf? [DecidableEq α] [DecidableEq β] (hu : Relator.BiUnique R)
    (h : Forall₂ R l l') (hx : R x y) : l.idxOf? x = l'.idxOf? y := by
  induction h with
  | nil => rfl
  | cons ha _ ih =>
    rw [idxOf?_cons, idxOf?_cons, ih]
    simp only [beq_iff_eq, Relator.rel_eq hu ha hx]

theorem rel_filter_of_eq {p : α → Bool} {q : β → Bool} (hp : ∀ x y, R x y → p x = q y)
    (h : Forall₂ R l l') : Forall₂ R (l.filter p) (l'.filter q) :=
  rel_filter (fun x y hxy => iff_of_eq (congrArg (· = true) (hp x y hxy))) h

theorem rel_find? {p : α → Bool} {q : β → Bool} (hp : ∀ x y, R x y → p x = q y)
    (h : Forall₂ R l l') : Option.Rel R (l.find? p) (l'.find? q) := by
  induction h with
  | nil => exact .none
  | cons hx _ ih =>
    rw [find?_cons, find?_cons, hp _ _ hx]
    split
    · exact .some hx
    · exact ih

theorem rel_chain {next : α → Option α} {next' : β → Option β}
    (hnext : ∀ x y, R x y → Option.Rel R (next x) (next' y)) (n : Nat) (h : R x y) :
    Forall₂ R (Forest.chain next n x) (Forest.chain next' n y) := by
  induction n generalizing x y with
  | zero => exact .nil
  | succ n ih =>
    refine .cons h ?_
    rcases rel_option_cases (hnext x y h) with ⟨hx, hy⟩ | ⟨x', y', hx, hy, h'⟩
    · rw [hx, hy]
      exact .nil
    · rw [hx, hy]
      exact ih h'

theorem flatMap_eq_of_rel {γ : Type} {g : α → List γ} {g' : β → List γ}
    (h : Forall₂ R l l') (hg : ∀ x y, R x y → g x = g' y) : l.flatMap g = l'.flatMap g' := by
  induction h with
  | nil => rfl
  | cons hx _ ih => rw [flatMap_cons, flatMap_cons, hg _ _ hx, ih]

end Outline

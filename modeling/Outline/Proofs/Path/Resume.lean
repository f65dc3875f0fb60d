import Mathlib.Tactic.Common
import Outline.Forest.Edit
import Outline.Path.Evaluate

/-!
# Evaluation in parts

Evaluation ends as soon as no node is left. It can be interrupted behind any step and resumed from
there. The early end does not show, but for the step that looks at the text of a child of the
identity node: this one may fail where there is nothing to filter (`evaluate_append`).
-/

namespace Outline.Path.World

section

variable {m : Type → Type} [Monad m] [MonadExceptOf Error m] {w : World}
  {s : NodeId → m String} {identity : NodeId} {step : Step} {steps xs ys : List Step}
  {input : List NodeId}

/-- Go on with an evaluation that has come to the nodes `input`. As anywhere in an evaluation, it
stops if there are none. -/
def resume (w : World) (stringify : NodeId → m String) (identity : NodeId) (steps : List Step)
    (input : List NodeId) : m (List NodeId) :=
  if input.isEmpty then return [] else w.runWith stringify identity steps input

theorem resume_empty : w.resume s identity steps [] = pure [] := rfl

theorem resume_nil : w.resume s identity [] input = pure input := by
  cases input <;> rfl

theorem resume_cons (h : input ≠ []) : w.resume s identity (step :: steps) input =
    w.applyWith s identity step input >>= w.resume s identity steps := by
  cases input with
  | nil => exact absurd rfl h
  | cons id input => rfl

/-- No step makes nodes out of nothing, and none of them fails there but an extrapolation. -/
theorem applyWith_empty (h : ∀ n, step ≠ .extrapolation n) :
    w.applyWith s identity step [] = pure [] := by
  cases step with
  | extrapolation n => exact absurd rfl (h n)
  | subscript start count => rw [applyWith, List.drop_nil, List.take_nil]
  | _ => rfl

variable [LawfulMonad m]

theorem resume_append : w.resume s identity (xs ++ ys) input =
    w.resume s identity xs input >>= w.resume s identity ys := by
  induction xs generalizing input with
  | nil => rw [resume_nil, pure_bind, List.nil_append]
  | cons step xs ih =>
    by_cases hinput : input = []
    · rw [hinput, resume_empty, resume_empty, pure_bind, resume_empty]
    · rw [List.cons_append, resume_cons hinput, resume_cons hinput, bind_assoc]
      exact bind_congr fun result => ih

/-- Whether there are nodes matters only to an extrapolation right at the start. -/
theorem resume_eq_runWith (h : ∀ n, steps.head? ≠ some (.extrapolation n)) :
    w.resume s identity steps input = w.runWith s identity steps input := by
  by_cases hinput : input = []
  · subst hinput
    cases steps with
    | nil => rfl
    | cons step steps =>
      have hstep : ∀ n, step ≠ .extrapolation n := fun n hn => h n (by rw [hn]; rfl)
      rw [resume_empty, runWith, applyWith_empty hstep, pure_bind]
      rfl
  · rw [resume, if_neg (by simpa using hinput)]

/-- Without extrapolations, all steps may as well be applied one after the other. -/
theorem resume_eq_foldlM (h : ∀ n, .extrapolation n ∉ steps) :
    w.resume s identity steps input =
      steps.foldlM (fun input step => w.applyWith s identity step input) input := by
  induction steps generalizing input with
  | nil => rw [resume_nil, List.foldlM_nil]
  | cons step steps ih =>
    have hstep : ∀ n, step ≠ .extrapolation n := fun n hn => h n (by simp [hn])
    have hrest : ∀ input, w.resume s identity steps input =
        steps.foldlM (fun input step => w.applyWith s identity step input) input :=
      fun input => ih fun n hn => h n (by simp [hn])
    rw [List.foldlM_cons]
    by_cases hinput : input = []
    · rw [hinput, applyWith_empty hstep, pure_bind, ← hrest, resume_empty, resume_empty]
    · rw [resume_cons hinput]
      exact bind_congr hrest

end

variable {w : World}

theorem evaluate_eq_resume (w : World) (e : Expression) (identity : NodeId) :
    w.evaluate e identity = w.resume (w.stringify w.forest.size) identity e.steps [identity] := rfl

/-- A row of steps may be cut anywhere: the rest goes on from the nodes that the first part leads
to, and where these are none, evaluation has ended. Unless the rest starts with an extrapolation, it
makes no difference to apply it to no nodes, too. And a row without extrapolations gives the same,
result or error, as all of its steps applied one after the other. -/
theorem evaluate_append (w : World) (identity : NodeId) (xs ys : List Step) :
    w.evaluate ⟨xs ++ ys⟩ identity =
        w.evaluate ⟨xs⟩ identity >>= w.resume (w.stringify w.forest.size) identity ys ∧
      ((∀ n, ys.head? ≠ some (.extrapolation n)) → w.evaluate ⟨xs ++ ys⟩ identity =
        w.evaluate ⟨xs⟩ identity >>= w.runWith (w.stringify w.forest.size) identity ys) ∧
      ((∀ n, .extrapolation n ∉ xs) → w.evaluate ⟨xs⟩ identity =
        xs.foldlM (fun input step => w.apply identity step input) [identity]) := by
  have happend : w.evaluate ⟨xs ++ ys⟩ identity =
      w.evaluate ⟨xs⟩ identity >>= w.resume (w.stringify w.forest.size) identity ys := by
    simp only [evaluate_eq_resume]
    exact resume_append
  refine ⟨happend, fun hys => ?_, fun hxs => ?_⟩
  · rw [happend]
    exact bind_congr fun result => resume_eq_runWith hys
  · rw [evaluate_eq_resume]
    exact resume_eq_foldlM hxs

/-- No node is called `b`, so the extrapolation behind that name is never looked at. Applied to no
nodes, it fails. -/
theorem evaluate_append_nothing_left :
    let f := (Forest.empty.create "a" none).2.add Forest.root 1
    let w : World := ⟨f, fun _ => ""⟩
    let xs : List Step := [.children, .named "b"]
    let ys : List Step := [.children, .extrapolation 5]
    w.evaluate ⟨xs⟩ 0 = xs.foldlM (fun input step => w.apply 0 step input) [0] ∧
      w.evaluate ⟨xs ++ ys⟩ 0 =
        w.evaluate ⟨xs⟩ 0 >>= w.runWith (w.stringify w.forest.size) 0 ys ∧
      (w.evaluate ⟨xs ++ ys⟩ 0).result = .ok [] ∧
      ((xs ++ ys).foldlM (fun input step => w.apply 0 step input) [0]).result =
        .error (.extrapolationOutOfRange 5) := by
  intro f w xs ys
  obtain ⟨-, happend, hplain⟩ := evaluate_append w 0 xs ys
  exact ⟨hplain (by simp [xs]), happend (by simp [ys]), by decide, by decide⟩

end Outline.Path.World

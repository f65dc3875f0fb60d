import Outline.Proofs.Path.Guard

/-!
# Calls of an evaluator

An evaluator is called with an expression or with one step. Its recursion takes off the trail what
it put there, however it ends and however deep it went, so a call leaves every trail as it was
(`Call.Ends.trail_eq`). From an empty trail it always ends, and in one way (`Call.ends_iff`).
-/

namespace Outline.Path

/-- A call of an evaluator: an expression from a node, or one step from a list of nodes. -/
inductive Call
  | evaluate (e : Expression) (identity : NodeId)
  | apply (identity : NodeId) (step : Step) (input : List NodeId)

/-- What a call ends with, and the trail that it leaves. -/
abbrev Outcome := Except Error (List NodeId) × List NodeId

namespace Call

def runWith {m : Type → Type} [Monad m] [MonadExceptOf Error m] (w : World)
    (stringify : NodeId → m String) : Call → m (List NodeId)
  | evaluate e identity => w.runWith stringify identity e.steps [identity]
  | apply identity step input => w.applyWith stringify identity step input

def run (w : World) : Call → Evaluation (List NodeId)
  | evaluate e identity => w.evaluate e identity
  | apply identity step input => w.apply identity step input

theorem run_eq_runWith (w : World) (call : Call) :
    call.run w = call.runWith w (w.stringify w.forest.size) := by
  cases call <;> rfl

/-- Started with a trail, the recursion of the call ends in this way. -/
def Ends (w : World) (call : Call) (trail : List NodeId) (o : Outcome) : Prop :=
  ∃ depth, call.runWith w (w.stringifyGuarded depth) trail = some o

end Call

variable {w : World} {c : Call} {trail : List NodeId} {o : Outcome}

theorem Relates.runCall {m n : Type → Type} [Monad m] [MonadExceptOf Error m] [Monad n]
    [MonadExceptOf Error n] {R : ∀ {α : Type}, m α → n α → Prop} {s : NodeId → m String}
    {s' : NodeId → n String} (h : Relates (m := m) (n := n) R) (hs : ∀ id, R (s id) (s' id))
    (call : Call) : R (call.runWith w s) (call.runWith w s') := by
  cases call with
  | evaluate e identity => exact h.runWith hs identity e.steps [identity]
  | apply identity step input => exact h.applyWith hs identity step input

/-- Where the first recursion ends, the second one ends in the same way, and both leave the trail as
it was. -/
def Restores {α : Type} (x y : Attempt α) : Prop :=
  ∀ t (o : Except Error α × List NodeId), x t = some o → y t = some o ∧ o.2 = t

theorem relates_restores : Relates (m := Attempt) (n := Attempt) Restores where
  pure _ _ _ h := ⟨h, Option.some.inj h ▸ rfl⟩
  throw _ _ _ h := ⟨h, Option.some.inj h ▸ rfl⟩
  bind {α β x y k l} hx hk t o h := by
    rw [Attempt.bind_apply] at h ⊢
    cases hxt : x t with
    | none =>
      rw [hxt] at h
      cases h
    | some o' =>
      rw [hxt] at h
      obtain ⟨hy, htrail⟩ := hx t o' hxt
      rw [hy]
      obtain ⟨_ | a, t'⟩ := o'
      · exact ⟨h, Option.some.inj h ▸ htrail⟩
      · obtain rfl : t' = t := htrail
        exact hk a t' o h

/-- A recursion that has ended does not go deeper where it could. The node that it put on the trail
is taken off again: the calls inside leave it where it is, on top. -/
theorem restores_stringifyGuarded (depth : Nat) (id : NodeId) :
    Restores (w.stringifyGuarded depth id) (w.stringifyGuarded (depth + 1) id) := by
  induction depth generalizing id with
  | zero =>
    intro t o h
    cases h
  | succ depth ih =>
    intro t o h
    by_cases hplain : ∀ e, w.forest.value id ≠ some (.expression e)
    · obtain ⟨-, hs, -⟩ := stringify_plain hplain depth
      obtain ⟨-, hs', -⟩ := stringify_plain hplain (depth + 1)
      rw [hs] at h
      rw [hs']
      exact ⟨h, Option.some.inj h ▸ rfl⟩
    · obtain ⟨e, hv⟩ := not_forall_not.mp hplain
      by_cases hmem : id ∈ t
      · rw [(stringify_of_mem hv hmem depth).2] at h
        rw [(stringify_of_mem hv hmem (depth + 1)).2]
        exact ⟨h, Option.some.inj h ▸ rfl⟩
      · rw [stringifyGuarded_succ hv hmem, Option.map_eq_some_iff] at h
        obtain ⟨o', ho', rfl⟩ := h
        obtain ⟨hnext, htrail⟩ := relates_restores.followWith ih e id (id :: t) o' ho'
        rw [stringifyGuarded_succ hv hmem, hnext]
        exact ⟨rfl, congrArg List.tail htrail⟩

namespace Call

theorem runWith_mono {depth depth' : Nat} (hle : depth ≤ depth')
    (h : c.runWith w (w.stringifyGuarded depth) trail = some o) :
    c.runWith w (w.stringifyGuarded depth') trail = some o := by
  induction hle with
  | refl => exact h
  | step _ ih => exact (relates_restores.runCall (restores_stringifyGuarded _) c trail o ih).1

theorem Ends.trail_eq (h : c.Ends w trail o) : o.2 = trail := by
  obtain ⟨depth, h⟩ := h
  exact (relates_restores.runCall (restores_stringifyGuarded depth) c trail o h).2

theorem settles_run {depth : Nat} (hd : w.forest.size < depth) (c : Call) :
    Settles w w.forest.size (c.runWith w (w.stringifyGuarded depth)) (c.run w) := by
  rw [run_eq_runWith]
  exact (relates_settles w w.forest.size).runCall
    (fun id => settles_stringify (Nat.le_refl _) hd id) c

theorem run_nil (w : World) (c : Call) : c.run w [] = ((c.run w).result, []) :=
  Prod.ext rfl (settles_run (Nat.lt_succ_self _) c [] (.nil w)).2

/-- From an empty trail the recursion always ends, in the one way that the evaluator gives. -/
theorem ends_iff : c.Ends w [] o ↔ o = ((c.run w).result, []) := by
  have hends : ∀ depth, w.forest.size < depth →
      c.runWith w (w.stringifyGuarded depth) [] = some ((c.run w).result, []) := by
    intro depth hd
    rw [(settles_run hd c [] (.nil w)).1, run_nil]
  constructor
  · rintro ⟨depth, h⟩
    have hdeep := runWith_mono (Nat.le_add_right depth (w.forest.size + 1)) h
    rw [hends _ (by omega)] at hdeep
    exact (Option.some.inj hdeep).symm
  · rintro rfl
    exact ⟨w.forest.size + 1, hends _ (Nat.lt_succ_self _)⟩

end Call
end Outline.Path

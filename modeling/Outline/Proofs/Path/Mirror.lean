import Outline.Proofs.Forest.Mirror
import Outline.Proofs.Path.Guard

/-!
# Evaluation of mirrored nodes

Evaluation looks at names, values, children and parents, and it compares nodes with each other.
Between paired nodes none of this makes a difference, so neither does evaluation: it fails in
the same way or leads to paired nodes. Only the step into a nested tree has to be left out,
since the nodes in there are not paired off.
-/

namespace Outline

open List

/-- Both computations fail with the same error, or what they give belongs together. -/
inductive SameOutcome {α β : Type} (S : α → β → Prop) : Except Error α → Except Error β → Prop
  | error (e : Error) : SameOutcome S (.error e) (.error e)
  | ok {a : α} {b : β} (h : S a b) : SameOutcome S (.ok a) (.ok b)

namespace Evaluation

variable {α β γ δ : Type} {R : NodeId → NodeId → Prop} {S : α → β → Prop} {T : γ → δ → Prop}

/-- From trails of paired nodes, both evaluations have the same outcome and leave trails of paired
nodes. -/
def Mirrors (R : NodeId → NodeId → Prop) (S : α → β → Prop) (x : Evaluation α)
    (y : Evaluation β) : Prop :=
  ∀ t t', Forall₂ R t t' → SameOutcome S (x t).1 (y t').1 ∧ Forall₂ R (x t).2 (y t').2

theorem Mirrors.pure {a : α} {b : β} (h : S a b) :
    Mirrors R S (Pure.pure a : Evaluation α) (Pure.pure b) :=
  fun _ _ ht => ⟨.ok h, ht⟩

theorem Mirrors.throw (e : Error) : Mirrors R S (MonadExcept.throw e) (MonadExcept.throw e) :=
  fun _ _ ht => ⟨.error e, ht⟩

theorem Mirrors.bind {x : Evaluation α} {y : Evaluation β} {k : α → Evaluation γ}
    {l : β → Evaluation δ} (h : Mirrors R S x y) (hk : ∀ a b, S a b → Mirrors R T (k a) (l b)) :
    Mirrors R T (x >>= k) (y >>= l) := by
  intro t t' ht
  obtain ⟨hout, htrail⟩ := h t t' ht
  rw [Path.Evaluation.bind_apply, Path.Evaluation.bind_apply]
  generalize x t = r at hout htrail ⊢
  generalize y t' = r' at hout htrail ⊢
  obtain ⟨r, u⟩ := r
  obtain ⟨r', u'⟩ := r'
  cases hout with
  | error e => exact ⟨.error e, htrail⟩
  | ok hab => exact hk _ _ hab u u' htrail

end Evaluation

namespace Path.World

/-- Paired nodes hold values of the same text, the same ones unless they are nested trees. No
expression among the values goes into a nested tree. -/
structure Mirror (w : World) (R : NodeId → NodeId → Prop) : Prop
    extends Forest.Mirror w.forest R where
  value : ∀ {x y}, R x y → w.forest.value x = w.forest.value y ∨
    ∃ c c', w.forest.value x = some (.node c) ∧ w.forest.value y = some (.node c') ∧
      w.text (.node c) = w.text (.node c')
  outside : ∀ {x y e}, R x y → w.forest.value x = some (.expression e) →
    Step.dereference ∉ e.steps

namespace Mirror

variable {w : World} {R : NodeId → NodeId → Prop} {x y : NodeId} {l l' : List NodeId}

/-! ## What a step looks at -/

theorem filterByName (hm : Mirror w R) (h : Forall₂ R l l') (name : String) :
    Forall₂ R (w.filterByName l name) (w.filterByName l' name) :=
  rel_filter_of_eq (fun x y hxy => by rw [hm.name hxy]) h

theorem valueEquals_eq (hm : Mirror w R) (h : R x y) (literal : String) :
    w.valueEquals literal x = w.valueEquals literal y := by
  unfold World.valueEquals
  rcases hm.value h with heq | ⟨c, c', hx, hy, htext⟩
  · rw [heq]
  · rw [hx, hy]
    simp only [htext]

theorem previousWrapped (hm : Mirror w R) (h : R x y) :
    Option.Rel R (w.previousWrapped x) (w.previousWrapped y) := by
  rw [World.previousWrapped, World.previousWrapped]
  rcases rel_option_cases (hm.parent h) with ⟨hx, hy⟩ | ⟨p, q, hx, hy, hp⟩
  · rw [hx, hy]
    exact .none
  · rw [hx, hy]
    exact rel_orElse (hm.previous h) (rel_getLast? (hm.children hp))

theorem nextWrapped (hm : Mirror w R) (h : R x y) :
    Option.Rel R (w.nextWrapped x) (w.nextWrapped y) := by
  rw [World.nextWrapped, World.nextWrapped]
  rcases rel_option_cases (hm.parent h) with ⟨hx, hy⟩ | ⟨p, q, hx, hy, hp⟩
  · rw [hx, hy]
    exact .none
  · rw [hx, hy]
    exact rel_orElse (hm.next h) (rel_head? (hm.children hp))

theorem distinct (hm : Mirror w R) {seen seen' : List NodeId} (hseen : Forall₂ R seen seen')
    (h : Forall₂ R l l') : Forall₂ R (World.distinct seen l) (World.distinct seen' l') := by
  induction h generalizing seen seen' with
  | nil => exact .nil
  | cons hx _ ih =>
    have hmem := rel_mem hm.unique hx hseen
    simp only [World.distinct, List.contains_iff_mem, hmem]
    split
    · exact ih hseen
    · exact .cons hx (ih (.cons hx hseen))

theorem findAncestor (hm : Mirror w R) (h : Forall₂ R l l') (name : String) :
    Option.Rel R (w.findAncestor l name) (w.findAncestor l' name) := by
  cases h with
  | nil => exact .none
  | cons hx _ =>
    exact rel_find? (fun x y hxy => by rw [hm.name hxy]) (hm.preceding hx)

theorem plainText_eq (hm : Mirror w R) (h : R x y) : w.plainText x = w.plainText y := by
  unfold World.plainText
  rcases hm.value h with heq | ⟨c, c', hx, hy, htext⟩
  · rw [heq]
  · rw [hx, hy]
    simp only [htext]

theorem expression_iff (hm : Mirror w R) (h : R x y) {e : Expression} :
    w.forest.value x = some (.expression e) ↔ w.forest.value y = some (.expression e) := by
  rcases hm.value h with heq | ⟨c, c', hx, hy, -⟩
  · rw [heq]
  · simp [hx, hy]

/-! ## Steps and rows of steps -/

section

variable {s s' : NodeId → Evaluation String}

theorem applyWith (hm : Mirror w R) (hs : ∀ x y, R x y → Evaluation.Mirrors R Eq (s x) (s' y))
    (hid : R x y) {step : Step} (hstep : step ≠ .dereference) (h : Forall₂ R l l') :
    Evaluation.Mirrors R (Forall₂ R) (w.applyWith s x step l) (w.applyWith s' y step l') := by
  cases step with
  | dereference => exact absurd rfl hstep
  | children => exact .pure (rel_flatMap h fun x y hxy => hm.children hxy)
  | previous => exact .pure (rel_filterMap (fun x y hxy => hm.previousWrapped hxy) h)
  | next => exact .pure (rel_filterMap (fun x y hxy => hm.nextWrapped hxy) h)
  | parent => exact .pure (hm.distinct .nil (rel_filterMap (fun x y hxy => hm.parent hxy) h))
  | root =>
    refine .pure (rel_toList ?_)
    cases h with
    | nil => exact .none
    | cons hx _ => exact .some (hm.rootOf hx)
  | descendants => exact .pure (rel_flatMap h fun x y hxy => hm.descendants hxy)
  | extrapolation index =>
    simp only [World.applyWith]
    rcases rel_option_cases (rel_getElem? (hm.children hid) index) with
      ⟨hx, hy⟩ | ⟨a, b, hx, hy, hab⟩
    · rw [hx, hy]
      exact .throw _
    · rw [hx, hy]
      refine (hs a b hab).bind fun name name' hname => ?_
      rw [hname]
      exact .pure (hm.filterByName h name')
  | valueEquals literal =>
    exact .pure (rel_filter_of_eq (fun x y hxy => hm.valueEquals_eq hxy literal) h)
  | subscript start count => exact .pure (forall₂_take count (forall₂_drop start h))
  | ancestor name => exact .pure (rel_toList (hm.findAncestor h name))
  | escaped name => exact .pure (hm.filterByName h name)
  | named name => exact .pure (hm.filterByName h name)
  | child index =>
    refine .pure (rel_filterMap (fun x y hxy => ?_) h)
    exact rel_getElem? (hm.children hxy) index

theorem runWith (hm : Mirror w R) (hs : ∀ x y, R x y → Evaluation.Mirrors R Eq (s x) (s' y))
    (hid : R x y) {steps : List Step} (hsteps : Step.dereference ∉ steps) (h : Forall₂ R l l') :
    Evaluation.Mirrors R (Forall₂ R) (w.runWith s x steps l) (w.runWith s' y steps l') := by
  induction steps generalizing l l' with
  | nil => exact .pure h
  | cons step steps ih =>
    rw [mem_cons, not_or] at hsteps
    simp only [World.runWith]
    refine (hm.applyWith hs hid (Ne.symm hsteps.1) h).bind fun r r' hr => ?_
    cases hr with
    | nil => exact .pure .nil
    | cons hx hrest => exact ih hsteps.2 (.cons hx hrest)

theorem followWith (hm : Mirror w R) (hs : ∀ x y, R x y → Evaluation.Mirrors R Eq (s x) (s' y))
    (hid : R x y) {e : Expression} (he : Step.dereference ∉ e.steps) :
    Evaluation.Mirrors R Eq (w.followWith s e x) (w.followWith s' e y) := by
  simp only [World.followWith]
  refine (hm.runWith hs hid he (.cons hid .nil)).bind fun r r' hr => ?_
  cases hr with
  | nil => exact .pure rfl
  | cons hx hrest =>
    cases hrest with
    | nil => exact hs _ _ hx
    | cons _ _ => exact .throw _

end

/-! ## Expressions that lead to expressions -/

/-- The same expressions are followed on both sides, and the trails meet themselves together. -/
theorem stringify (hm : Mirror w R) (depth : Nat) (h : R x y) :
    Evaluation.Mirrors R Eq (w.stringify depth x) (w.stringify depth y) := by
  induction depth using Nat.strong_induction_on generalizing x y with
  | _ depth ih =>
    by_cases hplain : ∀ e, w.forest.value x ≠ some (.expression e)
    · have hplain' : ∀ e, w.forest.value y ≠ some (.expression e) :=
        fun e he => hplain e ((hm.expression_iff h).mpr he)
      rw [(stringify_plain hplain depth).1, (stringify_plain hplain' depth).1]
      exact .pure (hm.plainText_eq h)
    · obtain ⟨e, hx⟩ := not_forall_not.mp hplain
      have hy := (hm.expression_iff h).mp hx
      intro t t' ht
      -- Nodes are paired one to one, so both are on their trails or neither is.
      have hmem := rel_mem hm.unique h ht
      by_cases hxt : x ∈ t
      · rw [(stringify_of_mem hx hxt depth).1, (stringify_of_mem hy (hmem.mp hxt) depth).1]
        exact ⟨.error _, ht⟩
      · have hyt : y ∉ t' := fun hyt => hxt (hmem.mpr hyt)
        cases depth with
        | zero =>
          rw [stringify_zero hx, stringify_zero hy]
          exact ⟨.error _, ht⟩
        | succ depth =>
          have hs := fun a b (hab : R a b) => ih depth (Nat.lt_succ_self depth) hab
          obtain ⟨hout, htrail⟩ :=
            hm.followWith hs h (hm.outside h hx) (x :: t) (y :: t') (.cons h ht)
          rw [stringify_succ hx hxt, stringify_succ hy hyt]
          exact ⟨hout, by simpa only [drop_one] using forall₂_drop 1 htrail⟩

theorem evaluate (hm : Mirror w R) {e : Expression} (he : Step.dereference ∉ e.steps)
    (h : R x y) :
    SameOutcome (Forall₂ R) (w.evaluate e x).result (w.evaluate e y).result :=
  (hm.runWith (fun _ _ => hm.stringify w.forest.size) h he (.cons h .nil) [] [] .nil).1

end Mirror
end Path.World
end Outline

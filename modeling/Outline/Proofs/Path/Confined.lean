import Outline.Outcome
import Outline.Proofs.Forest.Closed
import Outline.Proofs.Path.Guard

/-!
# Evaluation stays where it is

No step leaves a set of nodes that is closed under going up and down, but for the step into nested
trees. So evaluation leads to nodes that exist, and without that step to nodes of the tree of its
identity node (`evaluate_confined`).
-/

namespace Outline

namespace Evaluation

variable {α β : Type} {Q : α → Prop} {S : β → Prop}

/-- Whatever is on the trail, a result has the property. -/
def Yields (x : Evaluation α) (Q : α → Prop) : Prop := ∀ trail a, (x trail).1 = .ok a → Q a

theorem Yields.pure {a : α} (h : Q a) : Yields (Pure.pure a) Q := by
  intro _ _ ha
  cases ha
  exact h

theorem Yields.throw (e : Error) : Yields (MonadExcept.throw e) Q := fun _ _ ha => nomatch ha

theorem Yields.bind {x : Evaluation α} {k : α → Evaluation β} (h : Yields x Q)
    (hk : ∀ a, Q a → Yields (k a) S) : Yields (x >>= k) S := by
  intro trail b hb
  rw [Path.Evaluation.bind_apply] at hb
  cases hx : x trail with
  | mk r t =>
    rw [hx] at hb
    cases r with
    | error e => cases hb
    | ok a => exact hk a (h trail a (by rw [hx])) t b hb

end Evaluation

namespace Path

namespace World

variable {w : World} {P : NodeId → Prop} {s : NodeId → Evaluation String} {identity id : NodeId}
  {input : List NodeId}

theorem dereference_eq_ok {c : NodeId} :
    w.dereference id = .ok c ↔ w.forest.value id = some (.node c) := by
  unfold dereference
  split <;> simp_all

theorem mapM_dereference_all (hnested : ∀ {x c}, P x → w.forest.value x = some (.node c) → P c)
    (hinput : ∀ x ∈ input, P x) {result : List NodeId}
    (h : input.mapM w.dereference = .ok result) : ∀ x ∈ result, P x := by
  induction input generalizing result with
  | nil =>
    cases h
    exact fun _ hx => nomatch hx
  | cons id input ih =>
    obtain ⟨hid, hrest⟩ := List.forall_mem_cons.mp hinput
    simp only [List.mapM_cons, bind_eq_ok, pure_eq_ok] at h
    obtain ⟨c, hc, cs, hcs, rfl⟩ := h
    exact List.forall_mem_cons.mpr ⟨hnested hid (dereference_eq_ok.mp hc), ih hrest hcs⟩

theorem mem_of_mem_distinct {seen : List NodeId} : ∀ x ∈ distinct seen input, x ∈ input := by
  induction input generalizing seen with
  | nil => exact fun _ hx => hx
  | cons id input ih =>
    intro x hx
    unfold distinct at hx
    split at hx
    · exact List.mem_cons_of_mem id (ih x hx)
    · rcases List.mem_cons.mp hx with rfl | hx
      · exact List.mem_cons_self
      · exact List.mem_cons_of_mem id (ih x hx)

theorem previousWrapped_closed (h : w.forest.Closed P) {b : NodeId} (hid : P id)
    (hb : w.previousWrapped id = some b) : P b := by
  obtain ⟨p, hp, hb⟩ := Option.bind_eq_some_iff.mp hb
  cases hprev : w.forest.previous id with
  | none =>
    rw [hprev] at hb
    exact h.child (h.parent hid hp) (List.mem_of_getLast? hb)
  | some c =>
    rw [hprev] at hb
    cases hb
    exact h.previous hid hprev

theorem nextWrapped_closed (h : w.forest.Closed P) {b : NodeId} (hid : P id)
    (hb : w.nextWrapped id = some b) : P b := by
  obtain ⟨p, hp, hb⟩ := Option.bind_eq_some_iff.mp hb
  cases hnext : w.forest.next id with
  | none =>
    rw [hnext] at hb
    exact h.child (h.parent hid hp) (List.mem_of_head? hb)
  | some c =>
    rw [hnext] at hb
    cases hb
    exact h.next hid hnext

theorem findAncestor_closed (h : w.forest.Closed P) (hinput : ∀ x ∈ input, P x) {name : String}
    {a : NodeId} (ha : w.findAncestor input name = some a) : P a := by
  obtain ⟨id, hid, ha⟩ := Option.bind_eq_some_iff.mp ha
  exact h.preceding (hinput id (List.mem_of_head? hid)) a (List.mem_of_find?_eq_some ha)

/-! ## Steps and rows of steps -/

/-- A step may be taken inside the set: it does not go into nested trees, or these are in the set,
too. -/
def Inside (w : World) (P : NodeId → Prop) (step : Step) : Prop :=
  step = .dereference → ∀ {x c}, P x → w.forest.value x = some (.node c) → P c

theorem applyWith_closed (h : w.forest.Closed P) {step : Step} (hstep : w.Inside P step)
    (hinput : ∀ x ∈ input, P x) :
    Evaluation.Yields (w.applyWith s identity step input) (∀ x ∈ ·, P x) := by
  have hfilter : ∀ p : NodeId → Bool, ∀ x ∈ input.filter p, P x :=
    fun _ x hx => hinput x (List.mem_of_mem_filter hx)
  cases step with
  | children => exact .pure (List.forall_mem_flatMap.mpr fun a ha _ => h.child (hinput a ha))
  | dereference =>
    simp only [applyWith]
    cases hm : input.mapM w.dereference with
    | error e => exact .throw e
    | ok result => exact .pure (mapM_dereference_all (hstep rfl) hinput hm)
  | previous =>
    exact .pure (List.forall_mem_filterMap.mpr fun a ha _ =>
      previousWrapped_closed h (hinput a ha))
  | next =>
    exact .pure (List.forall_mem_filterMap.mpr fun a ha _ => nextWrapped_closed h (hinput a ha))
  | parent =>
    have hup : ∀ x ∈ input.filterMap w.forest.parent, P x :=
      List.forall_mem_filterMap.mpr fun a ha _ => h.parent (hinput a ha)
    exact .pure fun x hx => hup x (mem_of_mem_distinct x hx)
  | root =>
    refine .pure fun x hx => ?_
    obtain ⟨a, ha, rfl⟩ := Option.map_eq_some_iff.mp (Option.mem_toList.mp hx)
    exact h.rootOf (hinput a (List.mem_of_head? ha))
  | descendants =>
    exact .pure (List.forall_mem_flatMap.mpr fun a ha => h.descendants (hinput a ha))
  | extrapolation index =>
    simp only [applyWith]
    cases (w.forest.children identity)[index]? with
    | none => exact .throw _
    | some source =>
      exact Evaluation.Yields.bind (Q := fun _ => True) (fun _ _ _ => trivial) fun _ _ =>
        .pure (hfilter _)
  | valueEquals literal => exact .pure (hfilter _)
  | subscript start count =>
    exact .pure fun x hx => hinput x (List.mem_of_mem_drop (List.mem_of_mem_take hx))
  | ancestor name =>
    exact .pure fun x hx => findAncestor_closed h hinput (Option.mem_toList.mp hx)
  | escaped name => exact .pure (hfilter _)
  | named name => exact .pure (hfilter _)
  | child index =>
    exact .pure (List.forall_mem_filterMap.mpr fun a ha _ hb =>
      h.child (hinput a ha) (List.mem_of_getElem? hb))

theorem runWith_closed (h : w.forest.Closed P) {steps : List Step}
    (hsteps : ∀ step ∈ steps, w.Inside P step) (hinput : ∀ x ∈ input, P x) :
    Evaluation.Yields (w.runWith s identity steps input) (∀ x ∈ ·, P x) := by
  induction steps generalizing input with
  | nil => exact .pure hinput
  | cons step steps ih =>
    obtain ⟨hstep, hsteps⟩ := List.forall_mem_cons.mp hsteps
    refine (applyWith_closed h hstep hinput).bind fun result hresult => ?_
    split
    · exact .pure fun _ hx => nomatch hx
    · exact ih hsteps hresult

end World

/-- Where all nested trees exist, a step from nodes that exist leads to such nodes, and it stays in
their tree unless it goes into nested trees. Then the same holds of every evaluation. -/
theorem evaluate_confined {w : World} (hf : w.forest.WellFormed)
    (hnested : ∀ {x c}, w.forest.value x = some (.node c) → c < w.forest.size)
    {identity : NodeId} (hid : identity < w.forest.size) :
    (∀ step input trail result, (∀ x ∈ input, x < w.forest.size) →
      (w.apply identity step input trail).1 = .ok result →
      (∀ x ∈ result, x < w.forest.size) ∧
        ∀ r, step ≠ .dereference → (∀ x ∈ input, w.forest.rootOf x = r) →
          ∀ x ∈ result, w.forest.rootOf x = r) ∧
    ∀ e trail result, (w.evaluate e identity trail).1 = .ok result →
      (∀ x ∈ result, x < w.forest.size) ∧
        (.dereference ∉ e.steps → ∀ x ∈ result,
          w.forest.rootOf x = w.forest.rootOf identity) := by
  have hexist : ∀ step, w.Inside (· < w.forest.size) step := fun _ _ _ _ _ => hnested
  have htree : ∀ r step, step ≠ .dereference → w.Inside (w.forest.rootOf · = r) step :=
    fun _ _ hne heq => absurd heq hne
  refine ⟨fun step input trail result hinput hresult => ⟨?_, fun r hstep hr => ?_⟩,
    fun e trail result hresult => ⟨?_, fun he => ?_⟩⟩
  · exact World.applyWith_closed hf.closed_existing (hexist step) hinput trail result hresult
  · exact World.applyWith_closed (hf.closed_tree r) (htree r step hstep) hr trail result hresult
  · exact World.runWith_closed hf.closed_existing (fun step _ => hexist step)
      (List.forall_mem_singleton.mpr hid) trail result hresult
  · refine World.runWith_closed (hf.closed_tree _) (fun step hmem => htree _ step ?_)
      (List.forall_mem_singleton.mpr rfl) trail result hresult
    rintro rfl
    exact he hmem

/-- The tree nested in a node is left only by the step into it. -/
theorem evaluate_confined_nested :
    let made := ((((Forest.empty.create "a" (some (.node 3))).2.create "b" none).2.create
      "" none).2.create "c" none).2
    let f := ((made.add Forest.root 1).add 1 2).add 3 4
    let w : World := ⟨f, fun _ => ""⟩
    let inner : Expression := ⟨[.dereference, .descendants]⟩
    let outer : Expression := ⟨[.root, .descendants, .next]⟩
    f.rootOf 1 = 0 ∧
      (w.evaluate inner 1).result = .ok [3, 4] ∧ (∀ x ∈ [3, 4], x < f.size) ∧ f.rootOf 4 = 3 ∧
      (w.evaluate outer 1).result = .ok [1, 2] ∧ ∀ x ∈ [1, 2], f.rootOf x = f.rootOf 1 := by
  intro made f w inner outer
  have hf : f.WellFormed := by
    have hmade : Forest.Edited Forest.empty made :=
      (((Forest.Edited.create _ "a" _).trans (.create _ "b" _)).trans (.create _ "" _)).trans
        (.create _ "c" _)
    have hedited := ((hmade.trans (.add (p := Forest.root) (c := 1) (by decide +kernel)
      (by decide +kernel))).trans (.add (p := 1) (c := 2) (by decide +kernel)
      (by decide +kernel))).trans (.add (p := 3) (c := 4) (by decide +kernel) (by decide +kernel))
    exact (hedited.extends Forest.wellFormed_empty).1
  have hone : 1 < f.size := by decide +kernel
  have hthree : 3 < f.size := by decide +kernel
  have hvalues : ∀ x < f.size, f.value x = none ∨ f.value x = some (.node 3) := by
    decide +kernel
  have hroots : f.rootOf 1 = 0 ∧ f.rootOf 4 = 3 := by decide +kernel
  have hinner : (w.evaluate inner 1).result = .ok [3, 4] := by decide +kernel
  have houter : (w.evaluate outer 1).result = .ok [1, 2] := by decide +kernel
  -- From here on, the forest is what was found out about it.
  clear_value f
  have hnested : ∀ {x c}, f.value x = some (.node c) → c < f.size := by
    intro x c hx
    rcases Nat.lt_or_ge x f.size with hlt | hge
    · rcases hvalues x hlt with hnone | hnode
      · rw [hnone] at hx
        cases hx
      · rw [hnode] at hx
        cases hx
        exact hthree
    · rw [Forest.value_of_size_le hge] at hx
      cases hx
  obtain ⟨-, heval⟩ := evaluate_confined (w := w) hf hnested hone
  exact ⟨hroots.1, hinner, (heval inner [] _ hinner).1, hroots.2, houter,
    (heval outer [] _ houter).2 (by decide)⟩

end Path
end Outline

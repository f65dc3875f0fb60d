import Outline.Proofs.Forest.Reachable

/-!
# Pre-order

The walk down keeps a stack, on which the pending siblings of several levels lie one upon the
other. It comes to the same as the recursion over the tree, and what it meets downward is what lies
below the node upward (`descendants_preorder`).
-/

namespace Outline.Forest

variable {f : Forest} {stack met pending out : List NodeId} {id : NodeId}

/-- How far the walk down has come: the stack, whose top is its last node, and what was met. -/
structure Descent where
  stack : List NodeId
  met : List NodeId

/-- One round of the walk: the top node is met, and its children take its place on the stack, the
first of them on top. -/
def Descent.round (f : Forest) (d : Descent) : Option Descent :=
  d.stack.getLast?.map fun id =>
    ⟨d.stack.dropLast ++ (f.children id).reverse, d.met ++ [id]⟩

theorem Descent.round_nil : round f ⟨[], met⟩ = none := rfl

theorem Descent.round_concat : round f ⟨stack ++ [id], met⟩ =
    some ⟨stack ++ (f.children id).reverse, met ++ [id]⟩ := by
  simp [round]

/-- The rounds end, whatever is on the stack, when the nodes below it have been met. -/
theorem Visits.passes_round (h : Visits f pending out) (met : List NodeId) :
    ∃ states, Passes (Descent.round f) ⟨pending.reverse, met⟩ states ∧
      states.getLast? = some ⟨[], met ++ out⟩ := by
  induction h generalizing met with
  | done => exact ⟨[⟨[], met⟩], .last Descent.round_nil, by simp⟩
  | @visit id pending out _ ih =>
    obtain ⟨states, hrun, hlast⟩ := ih (met ++ [id])
    rw [List.reverse_append] at hrun
    refine ⟨_, .step (by rw [List.reverse_cons, Descent.round_concat]) hrun, ?_⟩
    rw [List.getLast?_cons, hlast, List.append_assoc, List.singleton_append]
    rfl

/-- The walk down from a node ends. It meets the node and then the trees below its children in
order, no node twice, and exactly those nodes from which the way up comes to the node. -/
theorem descendants_preorder (hf : f.WellFormed) (id : NodeId) :
    (∃ states, Passes (Descent.round f) ⟨[id], []⟩ states ∧
      states.getLast? = some ⟨[], f.descendants id⟩) ∧
      f.descendants id = id :: (f.children id).flatMap f.descendants ∧
      (f.descendants id).Nodup ∧ ∀ m, m ∈ f.descendants id ↔ f.isWithin m id = true := by
  have htree := hf.treeOf_descendants id
  refine ⟨?_, hf.descendants_eq id, htree.nodup, fun m => ?_⟩
  · exact htree.covers.visits.passes_round []
  · rw [htree.mem_iff, hf.isWithin_iff]

/-- A tree of three levels in which a younger node was put in front of an older one. -/
theorem descendants_preorder_inserted :
    let made := (((empty.create "a" none).2.create "b" none).2.create "c" none).2.create "d" none
    let f := (((made.2.add root 1).add 1 2).insertBefore 2 3).add root 4
    f.WellFormed ∧ f.descendants root = [0, 1, 3, 2, 4] ∧
      (∃ states, Passes (Descent.round f) ⟨[root], []⟩ states ∧
        states.getLast? = some ⟨[], [0, 1, 3, 2, 4]⟩) ∧
      f.isWithin 2 1 = true ∧ 2 ∈ f.descendants 1 := by
  intro made f
  have hf : f.WellFormed := by
    have hmade : Edited empty made.2 :=
      (((Edited.create empty "a" none).trans (.create _ "b" none)).trans
        (.create _ "c" none)).trans (.create _ "d" none)
    have hedited := ((((hmade.trans (.add (p := root) (c := 1) (by decide) (by decide))).trans
      (.add (p := 1) (c := 2) (by decide) (by decide))).trans
      (.insertBefore (s := 2) (n := 3) (by decide) (by decide))).trans
      (.add (p := root) (c := 4) (by decide) (by decide)))
    exact hedited.wellFormed
  have horder : f.descendants root = [0, 1, 3, 2, 4] := by decide
  have hwithin : f.isWithin 2 1 = true := by decide
  refine ⟨hf, horder, ?_, hwithin, ((descendants_preorder hf 1).2.2.2 2).mpr hwithin⟩
  rw [← horder]
  exact (descendants_preorder hf root).1

end Outline.Forest

import Outline.Proofs.Forest.Older

/-!
# The way back through a tree

Going back from a node leads over its older siblings to its parent, and on from there. It meets the
ancestors of the node and the older siblings on each level, and it runs against the pre-order of the
tree.
-/

namespace Outline.Forest

variable {f : Forest} {id p c : NodeId} {older younger : List NodeId}

/-! ## One level -/

theorem preceding_of_parent_none (hp : f.parent id = none) : f.preceding id = [] := by
  rw [preceding, earlier_of_parent_none hp]

theorem WellFormed.passes_earlier (hf : f.WellFormed) (id : NodeId) :
    Passes f.earlier id (id :: f.preceding id) := by
  cases he : f.earlier id with
  | none =>
    rw [preceding, he]
    exact .last he
  | some a => exact .step he (hf.passes_preceding he)

/-- The older siblings, the youngest of them first, then the parent, and then what precedes it. -/
theorem WellFormed.preceding_of_split (hf : f.WellFormed)
    (h : f.children p = older ++ id :: younger) :
    f.preceding id = older.reverse ++ p :: f.preceding p := by
  have hpasses : Passes f.earlier id (id :: (older.reverse ++ p :: f.preceding p)) := by
    induction older using List.reverseRecOn generalizing id younger with
    | nil => exact .step (hf.earlier_of_split h) (hf.passes_earlier p)
    | append_singleton older c ih =>
      have hback : f.earlier id = some c := by simpa using hf.earlier_of_split h
      have hsplit : f.children p = older ++ c :: id :: younger := by simpa using h
      rw [List.reverse_concat]
      exact .step hback (ih hsplit)
  exact (List.cons.inj ((hf.passes_earlier id).unique hpasses)).2

/-! ## Candidates -/

/-- A proper ancestor of a node, or an older sibling of the node or of one of its ancestors. -/
def Candidate (f : Forest) (id c : NodeId) : Prop :=
  Relation.TransGen (fun c p => f.parent c = some p) id c ∨ ∃ a, f.Within id a ∧ f.Older a c

theorem WellFormed.not_candidate_of_parent_none (hf : f.WellFormed) (hp : f.parent id = none) :
    ¬ f.Candidate id c := by
  rintro (hup | ⟨a, ha, hc⟩)
  · obtain ⟨q, hq, -⟩ := Relation.TransGen.head'_iff.mp hup
    rw [hp] at hq
    cases hq
  · rcases Relation.ReflTransGen.cases_head ha with rfl | ⟨q, hq, -⟩
    · exact hf.not_older_of_parent_none hp hc
    · rw [hp] at hq
      cases hq

theorem WellFormed.candidate_of_split (hf : f.WellFormed)
    (h : f.children p = older ++ id :: younger) :
    f.Candidate id c ↔ c ∈ older ∨ c = p ∨ f.Candidate p c := by
  have hp := hf.parent_of_split h
  constructor
  · rintro (hup | ⟨a, ha, hc⟩)
    · obtain ⟨q, hq, hup⟩ := Relation.TransGen.head'_iff.mp hup
      obtain rfl : p = q := Option.some.inj (hp.symm.trans hq)
      rcases Relation.reflTransGen_iff_eq_or_transGen.mp hup with rfl | hup
      · exact .inr (.inl rfl)
      · exact .inr (.inr (.inl hup))
    · rcases Relation.ReflTransGen.cases_head ha with rfl | ⟨q, hq, ha⟩
      · exact .inl ((hf.older_iff h).mp hc)
      · obtain rfl : p = q := Option.some.inj (hp.symm.trans hq)
        exact .inr (.inr (.inr ⟨a, ha, hc⟩))
  · rintro (hc | rfl | hup | ⟨a, ha, hc⟩)
    · exact .inr ⟨id, .refl, (hf.older_iff h).mpr hc⟩
    · exact .inl (.single hp)
    · exact .inl (.head hp hup)
    · exact .inr ⟨a, .head hp ha, hc⟩

theorem WellFormed.mem_preceding (hf : f.WellFormed) : c ∈ f.preceding id ↔ f.Candidate id c := by
  induction id using hf.climbs.induction with
  | _ id ih =>
    cases hp : f.parent id with
    | none =>
      rw [preceding_of_parent_none hp]
      exact iff_of_false List.not_mem_nil (hf.not_candidate_of_parent_none hp)
    | some p =>
      obtain ⟨older, younger, h⟩ := hf.exists_siblings hp
      rw [hf.preceding_of_split h, hf.candidate_of_split h, ← ih p hp, List.mem_append,
        List.mem_reverse, List.mem_cons]

/-! ## Against the pre-order -/

/-- The tree that a node belongs to, in pre-order. -/
def treeOrder (f : Forest) (id : NodeId) : List NodeId := f.descendants (f.rootOf id)

theorem WellFormed.nodup_treeOrder (hf : f.WellFormed) (id : NodeId) : (f.treeOrder id).Nodup :=
  (hf.treeOf_descendants _).nodup

theorem WellFormed.sublist_flatMap_descendants (hf : f.WellFormed) (ids : List NodeId) :
    ids.Sublist (ids.flatMap f.descendants) := by
  induction ids with
  | nil => exact .slnil
  | cons id ids ih =>
    rw [List.flatMap_cons, hf.descendants_eq, List.cons_append]
    exact (ih.trans (List.sublist_append_right _ _)).cons_cons id

/-- What going back meets stands in front of the tree below the node, the last node first. -/
theorem WellFormed.exists_treeOrder (hf : f.WellFormed) (id : NodeId) :
    ∃ before after, f.treeOrder id = before ++ f.descendants id ++ after ∧
      (f.preceding id).reverse.Sublist before := by
  induction id using hf.climbs.induction with
  | _ id ih =>
    cases hp : f.parent id with
    | none =>
      rw [treeOrder, hf.rootOf_of_parent_none hp, preceding_of_parent_none hp]
      exact ⟨[], [], by simp, .slnil⟩
    | some p =>
      obtain ⟨before, after, horder, hsub⟩ := ih p hp
      obtain ⟨older, younger, h⟩ := hf.exists_siblings hp
      refine ⟨before ++ p :: older.flatMap f.descendants, younger.flatMap f.descendants ++ after,
        ?_, ?_⟩
      · rw [treeOrder, hf.rootOf_of_parent hp, ← treeOrder, horder, hf.descendants_eq p, h]
        simp
      · rw [hf.preceding_of_split h, List.reverse_append, List.reverse_cons, List.reverse_reverse,
          List.append_assoc, List.singleton_append]
        exact hsub.append ((hf.sublist_flatMap_descendants older).cons_cons p)

theorem WellFormed.preceding_sublist (hf : f.WellFormed) (id : NodeId) :
    (id :: f.preceding id).reverse.Sublist (f.treeOrder id) := by
  obtain ⟨before, after, horder, hsub⟩ := hf.exists_treeOrder id
  rw [horder, hf.descendants_eq, List.reverse_cons, List.append_assoc]
  exact hsub.append (List.singleton_sublist.mpr (by simp))

theorem pairwise_idxOf {l : List NodeId} (hl : l.Nodup) :
    l.Pairwise fun a b => l.idxOf a < l.idxOf b := by
  refine List.pairwise_iff_getElem.mpr fun i j hi hj hij => ?_
  rwa [hl.idxOf_getElem i hi, hl.idxOf_getElem j hj]

theorem WellFormed.pairwise_preceding (hf : f.WellFormed) (id : NodeId) :
    (id :: f.preceding id).Pairwise fun a b =>
      (f.treeOrder id).idxOf b < (f.treeOrder id).idxOf a :=
  List.pairwise_reverse.mp
    ((pairwise_idxOf (hf.nodup_treeOrder id)).sublist (hf.preceding_sublist id))

end Outline.Forest

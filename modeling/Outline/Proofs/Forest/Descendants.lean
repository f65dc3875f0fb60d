import Outline.Proofs.Forest.WellFormed

/-!
# The tree below a node

Working off a stack meets the trees below its nodes, one after the other. In a well-formed
forest this ends, and the tree below a node has no node twice. The order is the pre-order: a node,
and then the trees below its children.
-/

namespace Outline.Forest

variable {f g : Forest} {id : NodeId}

/-- The nodes `out` are what working off `ids` meets, whatever waits behind them. -/
def Covers (f : Forest) (ids out : List NodeId) : Prop :=
  ∀ pending rest, Visits f pending rest → Visits f (ids ++ pending) (out ++ rest)

theorem Covers.nil : Covers f [] [] := fun _ _ h => h

theorem Covers.append {ids out ids' out' : List NodeId} (h : Covers f ids out)
    (h' : Covers f ids' out') : Covers f (ids ++ ids') (out ++ out') := by
  intro pending rest hv
  rw [List.append_assoc, List.append_assoc]
  exact h _ _ (h' _ _ hv)

theorem Covers.cons {id : NodeId} {out : List NodeId} (h : Covers f (f.children id) out) :
    Covers f [id] (id :: out) := fun pending rest hv => .visit (h pending rest hv)

theorem Covers.visits {ids out : List NodeId} (h : Covers f ids out) : Visits f ids out := by
  simpa using h [] [] .done

/-- The tree below `id`: what working off `id` meets, each node once. -/
structure TreeOf (f : Forest) (id : NodeId) (out : List NodeId) : Prop where
  covers : Covers f [id] out
  nodup : out.Nodup
  mem_iff : ∀ x, x ∈ out ↔ f.Within x id

theorem WellFormed.within_iff (hf : f.WellFormed) {x id : NodeId} :
    f.Within x id ↔ x = id ∨ ∃ c ∈ f.children id, f.Within x c := by
  constructor
  · intro h
    rcases Relation.ReflTransGen.cases_tail h with rfl | ⟨c, hx, hc⟩
    · exact .inl rfl
    · exact .inr ⟨c, hf.mem_children.mpr hc, hx⟩
  · rintro (rfl | ⟨c, hc, hx⟩)
    · exact .refl
    · exact hx.tail (hf.mem_children.mp hc)

theorem WellFormed.exists_covers (hf : f.WellFormed) {id : NodeId} {cs : List NodeId}
    (hcs : ∀ c ∈ cs, f.parent c = some id) (hn : cs.Nodup)
    (htree : ∀ c ∈ cs, ∃ out, TreeOf f c out) :
    ∃ out, Covers f cs out ∧ out.Nodup ∧ ∀ x, x ∈ out ↔ ∃ c ∈ cs, f.Within x c := by
  induction cs with
  | nil => exact ⟨[], .nil, .nil, by simp⟩
  | cons c cs ih =>
    obtain ⟨hc, hn⟩ := List.nodup_cons.mp hn
    obtain ⟨below, hbelow⟩ := htree c (by simp)
    obtain ⟨out, hcov, hout, hmem⟩ := ih (fun c hc => hcs c (by simp [hc])) hn
      (fun c hc => htree c (by simp [hc]))
    have hdisj : ∀ x ∈ below, ∀ y ∈ out, x ≠ y := by
      rintro x hx _ hy rfl
      obtain ⟨c', hc', hw⟩ := (hmem x).mp hy
      have hcc' : c = c' := hf.eq_of_within_children (hcs c (by simp)) (hcs c' (by simp [hc']))
        ((hbelow.mem_iff x).mp hx) hw
      exact hc (hcc' ▸ hc')
    refine ⟨below ++ out, hbelow.covers.append hcov, ?_, fun x => ?_⟩
    · exact List.nodup_append.mpr ⟨hbelow.nodup, hout, hdisj⟩
    · simp [hbelow.mem_iff, hmem]

/-- The induction goes down the tree: the way up from a child is longer by one, and no way up
is longer than there are nodes. -/
theorem WellFormed.exists_tree (hf : f.WellFormed) (id : NodeId) : ∃ out, TreeOf f id out := by
  by_cases hid : id < f.size
  · obtain ⟨n, hlen⟩ : ∃ n, f.size - (f.lineage id).length = n := ⟨_, rfl⟩
    induction n using Nat.strong_induction_on generalizing id with
    | _ n ih =>
      have hch : ∀ c ∈ f.children id, f.parent c = some id := fun c => hf.mem_children.mp
      obtain ⟨out, hcov, hout, hmem⟩ := hf.exists_covers hch (hf.nodup id) fun c hc => by
        have hc' := hf.child_lt hc
        have hle := hf.length_lineage_le hc'
        rw [hf.lineage_of_parent (hch c hc), List.length_cons] at hle
        refine ih (f.size - (f.lineage c).length) ?_ c hc' rfl
        rw [hf.lineage_of_parent (hch c hc), List.length_cons]
        omega
      refine ⟨id :: out, hcov.cons, List.nodup_cons.mpr ⟨fun h => ?_, hout⟩, fun x => ?_⟩
      · obtain ⟨c, hc, hw⟩ := (hmem id).mp h
        exact hf.not_within_child (hch c hc) hw
      · rw [List.mem_cons, hmem, hf.within_iff]
  · have hnone := children_of_size_le (Nat.le_of_not_lt hid)
    have hcov : Covers f [id] [id] := Covers.cons (by rw [hnone]; exact .nil)
    refine ⟨[id], hcov, by simp, fun x => ?_⟩
    rw [hf.within_iff]
    simp [hnone]

/-- The walk down from a node ends within its bound and meets the tree below the node. -/
theorem WellFormed.treeOf_descendants (hf : f.WellFormed) (id : NodeId) :
    TreeOf f id (f.descendants id) := by
  obtain ⟨out, hout⟩ := hf.exists_tree id
  have hlen : out.length ≤ f.size := by
    by_cases hid : id < f.size
    · refine length_le_of_nodup hout.nodup fun x hx => ?_
      rcases Relation.ReflTransGen.cases_head ((hout.mem_iff x).mp hx) with rfl | ⟨y, hy, _⟩
      · exact hid
      · exact lt_size_of_parent hy
    · have hnone := children_of_size_le (Nat.le_of_not_lt hid)
      have hsub : out ⊆ [id] := fun x hx => by
        have hw := hf.within_iff.mp ((hout.mem_iff x).mp hx)
        simpa [hnone] using hw
      exact (hout.nodup.length_le_of_subset hsub).trans hf.root_lt
  rw [descendants, hout.covers.visits.walk_eq hlen]
  exact hout

/-! ## Pre-order -/

theorem Visits.unique {pending out out' : List NodeId} (h : Visits f pending out)
    (h' : Visits f pending out') : out = out' := by
  induction h generalizing out' with
  | done =>
    cases h'
    rfl
  | visit _ ih =>
    cases h' with
    | visit h' => rw [ih h']

theorem Visits.congr {pending out : List NodeId} (h : Visits f pending out)
    (hch : ∀ x ∈ out, g.children x = f.children x) : Visits g pending out := by
  induction h with
  | done => exact .done
  | @visit id pending out _ ih =>
    have hg := ih fun x hx => hch x (List.mem_cons_of_mem id hx)
    rw [← hch id List.mem_cons_self] at hg
    exact .visit hg

theorem WellFormed.descendants_of_visits (hf : f.WellFormed) {out : List NodeId}
    (h : Visits f [id] out) : f.descendants id = out :=
  (hf.treeOf_descendants id).covers.visits.unique h

theorem WellFormed.covers (hf : f.WellFormed) (ids : List NodeId) :
    Covers f ids (ids.flatMap f.descendants) := by
  induction ids with
  | nil => exact .nil
  | cons id ids ih => exact (hf.treeOf_descendants id).covers.append ih

theorem WellFormed.descendants_eq (hf : f.WellFormed) (id : NodeId) :
    f.descendants id = id :: (f.children id).flatMap f.descendants :=
  hf.descendants_of_visits (hf.covers (f.children id)).cons.visits

theorem WellFormed.descendants_congr (hf : f.WellFormed) (hg : g.WellFormed)
    (hch : ∀ x, f.Within x id → g.children x = f.children x) :
    g.descendants id = f.descendants id := by
  have htree := hf.treeOf_descendants id
  exact hg.descendants_of_visits
    (htree.covers.visits.congr fun x hx => hch x ((htree.mem_iff x).mp hx))

end Outline.Forest

import Outline.Proofs.Forest.Walk

/-!
# Well-formed forests

The links up and the lists down tell the same story, and no node is its own ancestor. Then all
walks end within their bounds, and what a walk meets can be said in terms of ancestors.
-/

namespace Outline.Forest

structure WellFormed (f : Forest) : Prop where
  root_lt : root < f.size
  child_lt : ∀ {p c : NodeId}, c ∈ f.children p → c < f.size
  mem_children : ∀ {p c : NodeId}, c ∈ f.children p ↔ f.parent c = some p
  nodup : ∀ p, (f.children p).Nodup
  climbs : WellFounded fun p c => f.parent c = some p

/-- `id` is `ancestor` or sits somewhere below it. -/
def Within (f : Forest) (id ancestor : NodeId) : Prop :=
  Relation.ReflTransGen (fun c p => f.parent c = some p) id ancestor

variable {f g : Forest} {id p c a : NodeId}

theorem children_of_size_le (h : f.size ≤ id) : f.children id = [] := by
  simp [children, slot_of_size_le h]

theorem children_create_size (f : Forest) (n : String) (v : Option Value) :
    (f.create n v).2.children f.size = [] := by
  rw [children_create, children_of_size_le (Nat.le_refl _)]

theorem parent_of_size_le (h : f.size ≤ id) : f.parent id = none := by
  simp [parent, slot_of_size_le h]

theorem value_of_size_le (h : f.size ≤ id) : f.value id = none := by
  simp [value, slot_of_size_le h]

theorem lt_size_of_parent (h : f.parent c = some p) : c < f.size := by
  by_contra hc
  simp [parent_of_size_le (Nat.le_of_not_lt hc)] at h

theorem lt_size_of_mem_children (h : c ∈ f.children p) : p < f.size := by
  by_contra hp
  simp [children_of_size_le (Nat.le_of_not_lt hp)] at h

theorem wellFormed_empty : empty.WellFormed := by
  have hch : ∀ p, empty.children p = [] := fun p => by
    simp only [children, slot, empty]
    cases p <;> rfl
  have hpar : ∀ c, empty.parent c = none := fun c => by
    simp only [parent, slot, empty]
    cases c <;> rfl
  exact ⟨by decide, by simp [hch], by simp [hch, hpar], by simp [hch],
    ⟨fun c => ⟨c, fun p h => by simp [hpar] at h⟩⟩⟩

namespace WellFormed

theorem parent_lt (hf : f.WellFormed) (h : f.parent c = some p) : p < f.size :=
  lt_size_of_mem_children (hf.mem_children.mpr h)

theorem of_links (hf : f.WellFormed) (hsize : g.size = f.size)
    (hch : ∀ i, g.children i = f.children i) (hpar : ∀ i, g.parent i = f.parent i) :
    g.WellFormed where
  root_lt := hsize ▸ hf.root_lt
  child_lt h := hsize ▸ hf.child_lt (hch _ ▸ h)
  mem_children := by
    intro p c
    rw [hch, hpar]
    exact hf.mem_children
  nodup p := hch p ▸ hf.nodup p
  climbs := by simpa only [hpar] using hf.climbs

/-! ## Ancestors -/

theorem not_cycle (hf : f.WellFormed) (id : NodeId) :
    ¬ Relation.TransGen (fun c p => f.parent c = some p) id id := by
  intro h
  have hwf := hf.climbs.transGen
  have hswap : Relation.TransGen (fun p c => f.parent c = some p) id id :=
    Relation.transGen_swap.mpr h
  exact hwf.irrefl.irrefl id hswap

theorem not_within_child (hf : f.WellFormed) (h : f.parent c = some p) : ¬ f.Within p c :=
  fun hw => hf.not_cycle c (.head' h hw)

/-- Two ancestors of a node stand one above the other. -/
theorem within_or_within {x y : NodeId} (hx : f.Within id x) (hy : f.Within id y) :
    f.Within x y ∨ f.Within y x :=
  Relation.ReflTransGen.total_of_right_unique
    (fun _ _ _ h h' => Option.some.inj (h.symm.trans h')) hx hy

/-- The trees below two different children of a node have nothing in common. -/
theorem eq_of_within_children (hf : f.WellFormed) {x c c' : NodeId} (hc : f.parent c = some p)
    (hc' : f.parent c' = some p) (hx : f.Within x c) (hx' : f.Within x c') : c = c' := by
  rcases within_or_within hx hx' with h | h
  · rcases Relation.ReflTransGen.cases_head h with rfl | ⟨q, hq, h⟩
    · rfl
    · obtain rfl : p = q := Option.some.inj (hc.symm.trans hq)
      exact absurd h (hf.not_within_child hc')
  · rcases Relation.ReflTransGen.cases_head h with rfl | ⟨q, hq, h⟩
    · rfl
    · obtain rfl : p = q := Option.some.inj (hc'.symm.trans hq)
      exact absurd h (hf.not_within_child hc)

theorem passes_lineage (hf : f.WellFormed) (id : NodeId) : Passes f.parent id (f.lineage id) := by
  obtain ⟨l, hl⟩ := Passes.exists_of_acc (hf.climbs.apply id)
  have hlen : l.length ≤ f.size := by
    by_cases hid : id < f.size
    · refine length_le_of_nodup hl.nodup fun x hx => ?_
      rcases Relation.ReflTransGen.cases_tail (hl.mem_iff.mp hx) with rfl | ⟨y, _, hy⟩
      · exact hid
      · exact hf.parent_lt hy
    · have hnone := parent_of_size_le (Nat.le_of_not_lt hid)
      rw [hl.unique (.last hnone)]
      exact hf.root_lt
  rw [lineage, hl.chain_eq hlen]
  exact hl

theorem mem_lineage (hf : f.WellFormed) : a ∈ f.lineage id ↔ f.Within id a :=
  (hf.passes_lineage id).mem_iff

theorem isWithin_iff (hf : f.WellFormed) : f.isWithin id a = true ↔ f.Within id a := by
  rw [isWithin, List.contains_iff_mem]
  exact hf.mem_lineage

theorem length_lineage_le (hf : f.WellFormed) (hid : id < f.size) :
    (f.lineage id).length ≤ f.size := by
  refine length_le_of_nodup (hf.passes_lineage id).nodup fun x hx => ?_
  rcases Relation.ReflTransGen.cases_tail (hf.mem_lineage.mp hx) with rfl | ⟨y, _, hy⟩
  · exact hid
  · exact hf.parent_lt hy

theorem lineage_of_parent (hf : f.WellFormed) (h : f.parent c = some p) :
    f.lineage c = c :: f.lineage p :=
  (hf.passes_lineage c).unique (.step h (hf.passes_lineage p))

theorem parent_rootOf (hf : f.WellFormed) (id : NodeId) : f.parent (f.rootOf id) = none := by
  obtain ⟨b, hb, hn⟩ := (hf.passes_lineage id).next_getLast
  rw [rootOf, hb]
  exact hn

end WellFormed
end Outline.Forest

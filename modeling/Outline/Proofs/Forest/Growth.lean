import Outline.Proofs.Document.Grove
import Outline.Proofs.Forest.Edit

/-!
# Growing forests

Reading a document only adds nodes, and it adds them below one node that was there before.
Everything older stays as it is, so what a forest shows stays shown.
-/

namespace Outline.Forest

open Document

variable {f g h : Forest} {q id : NodeId} {new new' : List NodeId}

/-- From `f` to `g` nodes are added: `new` at the end of the list of `q`, others below them or
detached. -/
structure Grown (f g : Forest) (q : NodeId) (new : List NodeId) : Prop where
  wf : g.WellFormed
  size_le : f.size ≤ g.size
  name : ∀ i < f.size, g.name i = f.name i
  value : ∀ i < f.size, g.value i = f.value i
  parent : ∀ i < f.size, g.parent i = f.parent i
  children : ∀ i < f.size, g.children i = f.children i ++ if i = q then new else []

theorem Grown.refl (hf : f.WellFormed) (q : NodeId) : Grown f f q [] where
  wf := hf
  size_le := Nat.le_refl _
  name _ _ := rfl
  value _ _ := rfl
  parent _ _ := rfl
  children i _ := by simp

theorem Grown.trans (hg : Grown f g q new) (hh : Grown g h q new') :
    Grown f h q (new ++ new') where
  wf := hh.wf
  size_le := hg.size_le.trans hh.size_le
  name i hi := (hh.name i (Nat.lt_of_lt_of_le hi hg.size_le)).trans (hg.name i hi)
  value i hi := (hh.value i (Nat.lt_of_lt_of_le hi hg.size_le)).trans (hg.value i hi)
  parent i hi := (hh.parent i (Nat.lt_of_lt_of_le hi hg.size_le)).trans (hg.parent i hi)
  children i hi := by
    rw [hh.children i (Nat.lt_of_lt_of_le hi hg.size_le), hg.children i hi, List.append_assoc]
    split <;> simp

/-- What is added below new nodes does not show from the old ones. -/
theorem Grown.below {q' : NodeId} (hg : Grown f g q new) (hh : Grown g h q' new')
    (hq' : f.size ≤ q') : Grown f h q new where
  wf := hh.wf
  size_le := hg.size_le.trans hh.size_le
  name i hi := (hh.name i (Nat.lt_of_lt_of_le hi hg.size_le)).trans (hg.name i hi)
  value i hi := (hh.value i (Nat.lt_of_lt_of_le hi hg.size_le)).trans (hg.value i hi)
  parent i hi := (hh.parent i (Nat.lt_of_lt_of_le hi hg.size_le)).trans (hg.parent i hi)
  children i hi := by
    have hne : i ≠ q' := Nat.ne_of_lt (Nat.lt_of_lt_of_le hi hq')
    rw [hh.children i (Nat.lt_of_lt_of_le hi hg.size_le), hg.children i hi, if_neg hne,
      List.append_nil]

/-- Where nothing is added, or something below a new node, nothing is below the old nodes. -/
theorem Grown.detached (hg : Grown f g q new) (h : new = [] ∨ f.size ≤ q) (q' : NodeId) :
    Grown f g q' [] where
  wf := hg.wf
  size_le := hg.size_le
  name := hg.name
  value := hg.value
  parent := hg.parent
  children i hi := by
    rw [hg.children i hi, ite_self]
    rcases h with rfl | hq
    · rw [ite_self]
    · rw [if_neg (Nat.ne_of_lt (Nat.lt_of_lt_of_le hi hq))]

/-- Where nothing is added below the old nodes, what is below one of them was there before. -/
theorem Grown.within {a : NodeId} (hg : Grown f g q []) (hf : f.WellFormed) (ha : a < f.size)
    (hid : g.Within id a) : id < f.size ∧ f.Within id a := by
  induction hid using Relation.ReflTransGen.head_induction_on with
  | refl => exact ⟨ha, .refl⟩
  | @head c p hp _ ih =>
    obtain ⟨hlt, hwithin⟩ := ih
    have hmem := hg.wf.mem_children.mpr hp
    rw [hg.children p hlt, ite_self, List.append_nil] at hmem
    exact ⟨hf.child_lt hmem, .head (hf.mem_children.mp hmem) hwithin⟩

theorem Grown.within_mono {a : NodeId} (hg : Grown f g q new) (hid : f.Within id a) :
    g.Within id a := by
  induction hid with
  | refl => exact .refl
  | tail _ hp ih => exact .tail ih ((hg.parent _ (lt_size_of_parent hp)).trans hp)

theorem Grown.setValue (hg : Grown f g q new) (hid : f.size ≤ id) (v : Option Value) :
    Grown f (g.setValue id v) q new where
  wf := hg.wf.setValue id v
  size_le := by simpa using hg.size_le
  name i hi := by simpa using hg.name i hi
  value i hi := by
    have hne : i ≠ id := Nat.ne_of_lt (Nat.lt_of_lt_of_le hi hid)
    rw [value_setValue, if_neg fun h => hne h.1, hg.value i hi]
  parent i hi := by simpa using hg.parent i hi
  children i hi := by simpa using hg.children i hi

theorem Grown.grow (hf : f.WellFormed) (hq : q < f.size) (n : String) (v : Option Value) :
    Grown f (f.grow q n v) q [f.size] where
  wf := hf.grow hq n v
  size_le := by simp
  name i hi := by rw [name_grow, if_neg (Nat.ne_of_lt hi)]
  value i hi := by rw [value_grow, if_neg (Nat.ne_of_lt hi)]
  parent i hi := by rw [hf.parent_grow hq, if_neg (Nat.ne_of_lt hi)]
  children i _ := hf.children_grow hq n v i

theorem name_create (f : Forest) (n : String) (v : Option Value) (i : NodeId) :
    (f.create n v).2.name i = if i = f.size then n else f.name i := by
  rw [Forest.name, slot_create]
  split <;> rfl

theorem value_create (f : Forest) (n : String) (v : Option Value) (i : NodeId) :
    (f.create n v).2.value i = if i = f.size then v else f.value i := by
  rw [Forest.value, slot_create]
  split <;> rfl

theorem Grown.create (hf : f.WellFormed) (q : NodeId) (n : String) (v : Option Value) :
    Grown f (f.create n v).2 q [] where
  wf := hf.create n v
  size_le := by simp
  name i hi := by rw [name_create, if_neg (Nat.ne_of_lt hi)]
  value i hi := by rw [value_create, if_neg (Nat.ne_of_lt hi)]
  parent i hi := by simp
  children i hi := by simp

theorem Grown.showsFrom {low : Nat} {ids : List NodeId} {gr : Grove} (hg : Grown f g q new)
    (hq : q < low) (hs : ShowsFrom f low ids gr) : ShowsFrom g low ids gr :=
  hs.congr hg.size_le fun i hlow hi => ⟨hg.name i hi, hg.value i hi, by
    rw [hg.children i hi, if_neg (Nat.ne_of_gt (Nat.lt_of_lt_of_le hq hlow)), List.append_nil]⟩

theorem showsFrom_setValue {low : Nat} {ids : List NodeId} {gr : Grove} (hid : id < low)
    (hs : ShowsFrom f low ids gr) (v : Option Value) :
    ShowsFrom (f.setValue id v) low ids gr :=
  hs.congr (by simp) fun i hlow _ => ⟨name_setValue f id i v, by
    rw [value_setValue, if_neg fun h => Nat.ne_of_gt (Nat.lt_of_lt_of_le hid hlow) h.1],
    children_setValue f id i v⟩

/-! ## One new node -/

/-- One node was added below `q`, and nothing below it. -/
structure Leaf (f g : Forest) (q : NodeId) (name : String) : Prop where
  grown : Grown f g q [f.size]
  children : g.children f.size = []
  name : g.name f.size = name

variable {name : String}

theorem leaf_grow (hf : f.WellFormed) (hq : q < f.size) (name : String) (v : Option Value) :
    Leaf f (f.grow q name v) q name where
  grown := .grow hf hq name v
  children := by
    rw [hf.children_grow hq, children_of_size_le (Nat.le_refl _), if_neg (Nat.ne_of_gt hq)]
    rfl
  name := by rw [name_grow, if_pos rfl]

theorem Leaf.parent (hl : Leaf f g q name) (hq : q < f.size) : g.parent f.size = some q := by
  refine hl.grown.wf.mem_children.mp ?_
  rw [hl.grown.children q hq, if_pos rfl]
  simp

theorem Leaf.size_lt (hl : Leaf f g q name) (hq : q < f.size) : f.size < g.size :=
  lt_size_of_parent (hl.parent hq)

theorem Leaf.setValue (hl : Leaf f g q name) (v : Option Value) :
    Leaf f (g.setValue f.size v) q name where
  grown := hl.grown.setValue (Nat.le_refl _) v
  children := by rw [children_setValue, hl.children]
  name := by rw [name_setValue, hl.name]

/-- What is added elsewhere leaves the new node as it is. -/
theorem Leaf.trans (hl : Leaf f g q name) (hq : q < f.size) {q' : NodeId}
    (hh : Grown g h q' []) : Leaf f h q name where
  grown := hl.grown.trans (hh.detached (.inl rfl) q)
  children := by
    rw [hh.children _ (hl.size_lt hq), hl.children]
    simp
  name := (hh.name _ (hl.size_lt hq)).trans hl.name

end Outline.Forest

import Mathlib.Data.List.Perm.Basic
import Outline.Forest.Edit
import Outline.Proofs.Forest.WellFormed

/-!
# Edits keep forests well formed

Each edit lets go of some nodes, hangs one free node into a list, or both. These two changes
are shown to keep a forest well formed; what the edits do to lists and links then gives the rest.
-/

namespace Outline.Forest

variable {f g : Forest} {id p c s : NodeId}

namespace WellFormed

/-- Nodes are let go: they leave the lists they stand in and lose their links up. -/
theorem release (hf : f.WellFormed) (gone : NodeId → Bool) (hsize : g.size = f.size)
    (hch : ∀ q, g.children q = (f.children q).filter (!gone ·))
    (hpar : ∀ i, g.parent i = if gone i then none else f.parent i) : g.WellFormed where
  root_lt := hsize ▸ hf.root_lt
  child_lt {q i} h := by
    rw [hch, List.mem_filter] at h
    exact hsize ▸ hf.child_lt h.1
  mem_children := by
    intro q i
    rw [hch, hpar, List.mem_filter, hf.mem_children]
    cases gone i <;> simp
  nodup q := hch q ▸ (hf.nodup q).filter _
  climbs := by
    refine Subrelation.wf (fun {q i} h => ?_) hf.climbs
    rw [hpar] at h
    split at h
    · simp at h
    · exact h

/-- No way up goes through the node that is being hung in, unless it starts below it. -/
theorem acc_of_not_within (hf : f.WellFormed)
    (hpar : ∀ i, i ≠ c → g.parent i = f.parent i) {x : NodeId} (hx : ¬ f.Within x c) :
    Acc (fun q i => g.parent i = some q) x := by
  induction x using hf.climbs.induction with
  | _ x ih =>
    refine ⟨x, fun q hq => ?_⟩
    have hxc : x ≠ c := fun h => hx (h ▸ .refl)
    rw [hpar x hxc] at hq
    exact ih q hq fun hw => hx (.head hq hw)

/-- A free node is hung into the list of a node that is not below it. -/
theorem attach (hf : f.WellFormed) (hp : p < f.size) (hc : c < f.size)
    (hfree : f.parent c = none) (hw : ¬ f.Within p c) (hsize : g.size = f.size)
    (hpar : ∀ i, g.parent i = if i = c then some p else f.parent i)
    (hch : ∀ q, q ≠ p → g.children q = f.children q)
    (hperm : (g.children p).Perm (c :: f.children p)) : g.WellFormed := by
  have hparc : g.parent c = some p := by simp [hpar]
  have hpari : ∀ i, i ≠ c → g.parent i = f.parent i := fun i hi => by simp [hpar, hi]
  have hnot : ∀ q, c ∉ f.children q := fun q h => by simp [hf.mem_children, hfree] at h
  refine ⟨hsize ▸ hf.root_lt, fun {q i} h => ?_, fun {q i} => ?_, fun q => ?_, ⟨fun x => ?_⟩⟩
  · rw [hsize]
    by_cases hq : q = p
    · subst hq
      rcases List.mem_cons.mp (hperm.mem_iff.mp h) with rfl | h
      · exact hc
      · exact hf.child_lt h
    · exact hf.child_lt (hch q hq ▸ h)
  · by_cases hi : i = c
    · subst hi
      rw [hparc]
      by_cases hq : q = p
      · subst hq
        simp [hperm.mem_iff]
      · simp [hch q hq, hnot q, Ne.symm hq]
    · rw [hpari i hi, ← hf.mem_children]
      by_cases hq : q = p
      · subst hq
        simp [hperm.mem_iff, hi]
      · rw [hch q hq]
  · by_cases hq : q = p
    · subst hq
      exact hperm.nodup_iff.mpr (List.nodup_cons.mpr ⟨hnot q, hf.nodup q⟩)
    · exact hch q hq ▸ hf.nodup q
  · have haccp := hf.acc_of_not_within hpari hw
    induction x using hf.climbs.induction with
    | _ x ih =>
      refine ⟨x, fun q hq => ?_⟩
      by_cases hx : x = c
      · subst hx
        obtain rfl : p = q := Option.some.inj (hparc.symm.trans hq)
        exact haccp
      · exact ih q (hpari x hx ▸ hq)

end WellFormed

/-! ## What the edits do -/

@[simp] theorem size_untie (f : Forest) (id : NodeId) : (f.untie id).size = f.size := by
  unfold untie
  split <;> simp

theorem parent_untie (f : Forest) (id i : NodeId) :
    (f.untie id).parent i = if i = id then none else f.parent i := by
  unfold untie
  split
  · rename_i h
    split
    · simp_all
    · rfl
  · rename_i p h
    have hid := lt_size_of_parent h
    have hmod : ∀ t : Forest, (t.modify p fun s =>
        { s with children := s.children.filter (· != id) }).parent i = t.parent i := by
      intro t
      simp only [parent, slot_modify]
      split <;> rfl
    rw [hmod, parent_setParent]
    by_cases hi : i = id <;> simp [hi, hid]

theorem WellFormed.children_untie (hf : f.WellFormed) (id q : NodeId) :
    (f.untie id).children q = (f.children q).filter (· != id) := by
  have hself : ∀ {q}, f.parent id ≠ some q → (f.children q).filter (· != id) = f.children q := by
    intro q hq
    refine List.filter_eq_self.mpr fun i hi => ?_
    have hne : i ≠ id := fun h => hq (h ▸ hf.mem_children.mp hi)
    simpa using hne
  unfold untie
  split
  · rename_i h
    rw [hself (by simp [h])]
  · rename_i p h
    by_cases hq : q = p
    · subst hq
      simp [children, slot_modify, setParent, hf.parent_lt h]
      split <;> rfl
    · rw [hself (by simpa [h] using Ne.symm hq), children, slot_of_ne _ _ _ hq]
      exact children_setParent ..

theorem WellFormed.untie (hf : f.WellFormed) (id : NodeId) : (f.untie id).WellFormed :=
  hf.release (· == id) (by simp) (fun q => hf.children_untie id q) fun i => by
    simp [parent_untie]

theorem not_within_untie (hw : ¬ f.Within p c) : ¬ (f.untie c).Within p c := by
  refine fun h => hw (Relation.ReflTransGen.mono (fun i q hq => ?_) _ _ h)
  rw [parent_untie] at hq
  split at hq
  · simp at hq
  · exact hq

theorem WellFormed.create (hf : f.WellFormed) (name : String) (value : Option Value) :
    (f.create name value).2.WellFormed where
  root_lt := size_create f name value ▸ Nat.lt_succ_of_lt hf.root_lt
  child_lt {q i} h := by
    rw [size_create]
    exact Nat.lt_succ_of_lt (hf.child_lt (children_create f q name value ▸ h))
  mem_children := by
    intro q i
    rw [children_create, parent_create]
    exact hf.mem_children
  nodup q := by
    rw [children_create]
    exact hf.nodup q
  climbs := by simpa only [parent_create] using hf.climbs

theorem WellFormed.setName (hf : f.WellFormed) (id : NodeId) (name : String) :
    (f.setName id name).WellFormed := hf.of_links (by simp) (by simp) (by simp)

theorem WellFormed.setValue (hf : f.WellFormed) (id : NodeId) (value : Option Value) :
    (f.setValue id value).WellFormed := hf.of_links (by simp) (by simp) (by simp)

/-! ## Adding -/

theorem add_of_not_within (hf : f.WellFormed) (hw : ¬ f.Within p c) :
    f.add p c = (((f.untie c).modify p fun s =>
      { s with children := s.children ++ [c] }).setParent c (some p)) := by
  rw [add, if_neg fun h => hw (hf.isWithin_iff.mp h)]

@[simp] theorem size_add (f : Forest) (p c : NodeId) : (f.add p c).size = f.size := by
  unfold add
  split <;> simp

theorem parent_add (hf : f.WellFormed) (hc : c < f.size) (hw : ¬ f.Within p c) (i : NodeId) :
    (f.add p c).parent i = if i = c then some p else f.parent i := by
  rw [add_of_not_within hf hw, parent_setParent]
  by_cases hi : i = c
  · simp [hi, hc]
  · have hmod := parent_untie f c i
    simp only [hi, false_and, if_false, parent, slot_modify] at hmod ⊢
    split <;> exact hmod

theorem children_add (hf : f.WellFormed) (hp : p < f.size) (hw : ¬ f.Within p c) (q : NodeId) :
    (f.add p c).children q =
      (f.children q).filter (· != c) ++ if q = p then [c] else [] := by
  rw [add_of_not_within hf hw, children_setParent]
  by_cases hq : q = p
  · subst hq
    simp only [children, slot_modify, size_untie, hp, and_self, if_true]
    rw [← children, hf.children_untie]
    rfl
  · simp only [hq, if_false, List.append_nil]
    rw [children, slot_of_ne _ _ _ hq]
    exact hf.children_untie c q

theorem WellFormed.add (hf : f.WellFormed) (hp : p < f.size) (hc : c < f.size) :
    (f.add p c).WellFormed := by
  by_cases hw : f.Within p c
  · rw [Forest.add, if_pos (hf.isWithin_iff.mpr hw)]
    exact hf
  · refine (hf.untie c).attach (p := p) (c := c) (by simpa using hp) (by simpa using hc)
      (by simp [parent_untie]) (not_within_untie hw) (by simp) (fun i => ?_) (fun q hq => ?_) ?_
    · rw [parent_add hf hc hw, parent_untie]
      split <;> rfl
    · rw [children_add hf hp hw, hf.children_untie]
      simp [hq]
    · rw [children_add hf hp hw, hf.children_untie, if_pos rfl]
      exact List.perm_append_singleton c _

@[simp] theorem size_addRange (f : Forest) (p : NodeId) (cs : List NodeId) :
    (f.addRange p cs).size = f.size := by
  unfold addRange
  induction cs generalizing f with
  | nil => rfl
  | cons c cs ih => simp [ih]

theorem WellFormed.addRange (hf : f.WellFormed) (hp : p < f.size) {cs : List NodeId}
    (hcs : ∀ c ∈ cs, c < f.size) : (f.addRange p cs).WellFormed := by
  unfold Forest.addRange
  induction cs generalizing f with
  | nil => exact hf
  | cons c cs ih =>
    have hadd := hf.add hp (hcs c (by simp))
    exact ih hadd (by simpa using hp) fun c hc => by simpa using hcs c (by simp [hc])

theorem WellFormed.createWithChildren (hf : f.WellFormed) (name : String) (value : Option Value)
    {cs : List NodeId} (hcs : ∀ c ∈ cs, c < f.size) :
    (f.createWithChildren name value cs).2.WellFormed :=
  (hf.create name value).addRange (by simp) fun c hc => by
    rw [size_create]
    exact Nat.lt_succ_of_lt (hcs c hc)

/-! ## Names and values -/

theorem name_modify {h : Slot → Slot} (hh : ∀ s, (h s).name = s.name) (f : Forest)
    (id i : NodeId) : (f.modify id h).name i = f.name i := by
  simp only [name, slot_modify]
  split
  · exact hh _
  · rfl

theorem value_modify {h : Slot → Slot} (hh : ∀ s, (h s).value = s.value) (f : Forest)
    (id i : NodeId) : (f.modify id h).value i = f.value i := by
  simp only [value, slot_modify]
  split
  · exact hh _
  · rfl

@[simp] theorem name_untie (f : Forest) (id i : NodeId) : (f.untie id).name i = f.name i := by
  unfold untie
  split
  · rfl
  · simp [name_modify, setParent]

@[simp] theorem value_untie (f : Forest) (id i : NodeId) : (f.untie id).value i = f.value i := by
  unfold untie
  split
  · rfl
  · simp [value_modify, setParent]

@[simp] theorem name_add (f : Forest) (p c i : NodeId) : (f.add p c).name i = f.name i := by
  unfold add
  split
  · rfl
  · simp [name_modify, setParent]

@[simp] theorem value_add (f : Forest) (p c i : NodeId) : (f.add p c).value i = f.value i := by
  unfold add
  split
  · rfl
  · simp [value_modify, setParent]

/-! ## New children -/

/-- A new node at the end of the list of `parent`. -/
def grow (f : Forest) (parent : NodeId) (name : String) (value : Option Value) : Forest :=
  (f.create name value).2.add parent f.size

@[simp] theorem size_grow (f : Forest) (q : NodeId) (n : String) (v : Option Value) :
    (f.grow q n v).size = f.size + 1 := by
  simp [grow]

theorem name_grow (f : Forest) (q : NodeId) (n : String) (v : Option Value) (i : NodeId) :
    (f.grow q n v).name i = if i = f.size then n else f.name i := by
  rw [grow, name_add, name, slot_create]
  split <;> rfl

theorem value_grow (f : Forest) (q : NodeId) (n : String) (v : Option Value) (i : NodeId) :
    (f.grow q n v).value i = if i = f.size then v else f.value i := by
  rw [grow, value_add, value, slot_create]
  split <;> rfl

theorem WellFormed.grow (hf : f.WellFormed) (hp : p < f.size) (n : String) (v : Option Value) :
    (f.grow p n v).WellFormed :=
  (hf.create n v).add (by simpa using Nat.lt_succ_of_lt hp) (by simp)

theorem WellFormed.not_within_new (hf : f.WellFormed) (hp : p < f.size) (n : String)
    (v : Option Value) : ¬ (f.create n v).2.Within p f.size := by
  intro h
  rcases Relation.ReflTransGen.cases_tail h with rfl | ⟨i, _, hi⟩
  · exact Nat.lt_irrefl _ hp
  · rw [parent_create] at hi
    exact Nat.lt_irrefl _ (hf.parent_lt hi)

theorem WellFormed.parent_grow (hf : f.WellFormed) (hp : p < f.size) (n : String)
    (v : Option Value) (i : NodeId) :
    (f.grow p n v).parent i = if i = f.size then some p else f.parent i := by
  rw [Forest.grow, parent_add (hf.create n v) (by simp) (hf.not_within_new hp n v), parent_create]

theorem WellFormed.children_grow (hf : f.WellFormed) (hp : p < f.size) (n : String)
    (v : Option Value) (q : NodeId) :
    (f.grow p n v).children q = f.children q ++ if q = p then [f.size] else [] := by
  have hold : (f.children q).filter (· != f.size) = f.children q := by
    refine List.filter_eq_self.mpr fun i hi => ?_
    simpa using Nat.ne_of_lt (hf.child_lt hi)
  rw [Forest.grow, children_add (hf.create n v) (by simpa using Nat.lt_succ_of_lt hp)
    (hf.not_within_new hp n v), children_create, hold]

/-! ## Splicing -/

/-- Beside a sibling with a parent, a node is let go and put into the list of the parent. -/
theorem WellFormed.splice_eq (hf : f.WellFormed) {n : NodeId} (hp : f.parent s = some p)
    (hw : ¬ f.Within s n) :
    ∃ i, ((f.children p).filter (· != n))[i]? = some s ∧
      ∀ offset, f.splice s n offset = (((f.untie n).modify p fun t =>
        { t with children := t.children.insertIdx (i + offset) n }).setParent n (some p)) := by
  have hne : s ≠ n := fun h => hw (h ▸ .refl)
  have hp' : (f.untie n).parent s = some p := by simp [parent_untie, hne, hp]
  have hmem : s ∈ (f.children p).filter (· != n) := by simpa [hf.mem_children, hne] using hp
  obtain ⟨i, hi⟩ := Option.isSome_iff_exists.mp (List.isSome_idxOf?.mpr hmem)
  refine ⟨i, ?_, fun offset => ?_⟩
  · obtain ⟨hlt, hget, _⟩ := List.findIdx?_eq_some_iff_getElem.mp hi
    rw [List.getElem?_eq_getElem hlt, beq_iff_eq.mp hget]
  · have hplace : (f.untie n).place? s = some i := by
      rw [place?, siblings, hp']
      simpa [hf.children_untie] using hi
    rw [splice, if_neg fun h => hw (hf.isWithin_iff.mp h)]
    simp only [hp', hplace]

@[simp] theorem size_splice (f : Forest) (s n : NodeId) (offset : Nat) :
    (f.splice s n offset).size = f.size := by
  unfold splice
  split
  · rfl
  · dsimp only
    split <;> simp

theorem WellFormed.splice_of_parent_none (hf : f.WellFormed) {n : NodeId} {offset : Nat}
    (hp : f.parent s = none) (hw : ¬ f.Within s n) : f.splice s n offset = f.untie n := by
  have hp' : (f.untie n).parent s = none := by
    rw [parent_untie, hp]
    split <;> rfl
  rw [splice, if_neg fun h => hw (hf.isWithin_iff.mp h)]
  simp only [hp']

theorem WellFormed.splice (hf : f.WellFormed) {n : NodeId} {offset : Nat} (hn : n < f.size)
    (ho : offset ≤ 1) : (f.splice s n offset).WellFormed := by
  by_cases hw : f.Within s n
  · rw [Forest.splice, if_pos (hf.isWithin_iff.mpr hw)]
    exact hf
  cases hp : f.parent s with
  | none =>
    rw [hf.splice_of_parent_none hp hw]
    exact hf.untie n
  | some p =>
    obtain ⟨i, hi, heq⟩ := hf.splice_eq hp hw
    have hwp : ¬ f.Within p n := fun h => hw (.head hp h)
    have hpl := hf.parent_lt hp
    rw [heq offset]
    refine (hf.untie n).attach (p := p) (c := n) (by simpa using hpl) (by simpa using hn)
      (by simp [parent_untie]) (not_within_untie hwp) (by simp) (fun j => ?_) (fun q hq => ?_) ?_
    · rw [parent_setParent]
      by_cases hj : j = n
      · simp [hj, hn]
      · simp only [hj, false_and, if_false, parent, slot_modify]
        split <;> rfl
    · rw [children_setParent, children, slot_of_ne _ _ _ hq]
      rfl
    · obtain ⟨hlt, _⟩ := List.getElem?_eq_some_iff.mp hi
      rw [children_setParent, children, slot_modify, if_pos ⟨rfl, by simpa using hpl⟩]
      refine List.perm_insertIdx _ _ ?_
      have hlen : ((f.untie n).slot p).children.length =
          ((f.children p).filter (· != n)).length := congrArg _ (hf.children_untie n p)
      omega

/-! ## Clearing -/

theorem foldl_setParent_none (f : Forest) (cs : List NodeId) :
    (cs.foldl (fun f child => f.setParent child none) f).size = f.size ∧
      (∀ q, (cs.foldl (fun f child => f.setParent child none) f).children q = f.children q) ∧
      ∀ i, (cs.foldl (fun f child => f.setParent child none) f).parent i =
        if i ∈ cs then none else f.parent i := by
  induction cs generalizing f with
  | nil => simp
  | cons c cs ih =>
    obtain ⟨hsize, hch, hpar⟩ := ih (f.setParent c none)
    refine ⟨by simpa using hsize, fun q => by simpa using hch q, fun i => ?_⟩
    rw [List.foldl_cons, hpar, parent_setParent]
    by_cases hi : i ∈ cs
    · simp [hi]
    · by_cases hic : i = c
      · by_cases hlt : i < f.size
        · simp [hic, hic ▸ hlt]
        · simp [hic, parent_of_size_le (hic ▸ Nat.le_of_not_lt hlt)]
      · simp [hi, hic]

@[simp] theorem size_clear (f : Forest) (id : NodeId) : (f.clear id).size = f.size := by
  simpa [clear] using (foldl_setParent_none (f.setChildren id []) (f.children id)).1

theorem WellFormed.clear (hf : f.WellFormed) (id : NodeId) : (f.clear id).WellFormed := by
  obtain ⟨-, hch, hpar⟩ := foldl_setParent_none (f.setChildren id []) (f.children id)
  refine hf.release (fun i => (f.children id).contains i) (by simp) (fun q => ?_) fun i => ?_
  · rw [Forest.clear, hch, children_setChildren]
    by_cases hq : q = id
    · subst hq
      have hnone : (f.children q).filter (fun i => !(f.children q).contains i) = [] := by
        simp [List.filter_eq_nil_iff]
      rw [hnone]
      split
      · rfl
      · rename_i h
        exact children_of_size_le (by simpa using h)
    · rw [if_neg fun h => hq h.1, eq_comm, List.filter_eq_self]
      intro i hi
      have hid : i ∉ f.children id := fun h => hq (Option.some.inj
        ((hf.mem_children.mp hi).symm.trans (hf.mem_children.mp h)))
      simpa using hid
  · rw [Forest.clear, hpar, parent_setChildren]
    simp

end Outline.Forest

import Outline.Proofs.Forest.WellFormed

/-!
# Walks inside a closed set

A set of nodes that has the children and the parent of each of its nodes cannot be left by a walk.
In a well-formed forest, the nodes that exist are such a set, and so are the nodes of one tree.
-/

namespace Outline.Forest

structure Closed (f : Forest) (P : NodeId → Prop) : Prop where
  child : ∀ {p c}, P p → c ∈ f.children p → P c
  parent : ∀ {p c}, P c → f.parent c = some p → P p

theorem chain_all {α : Type} {P : α → Prop} {next : α → Option α}
    (hnext : ∀ a b, P a → next a = some b → P b) (n : Nat) {a : α} (ha : P a) :
    ∀ x ∈ chain next n a, P x := by
  induction n generalizing a with
  | zero => exact fun _ hx => nomatch hx
  | succ n ih =>
    refine List.forall_mem_cons.mpr ⟨ha, ?_⟩
    cases hb : next a with
    | none => exact fun _ hx => nomatch hx
    | some b => exact ih (hnext a b ha hb)

namespace Closed

variable {f : Forest} {P : NodeId → Prop} {id a b : NodeId}

theorem rootOf (h : Closed f P) (hid : P id) : P (f.rootOf id) := by
  have hup := chain_all (fun _ _ => h.parent) f.size hid
  rw [Forest.rootOf]
  cases hlast : (f.lineage id).getLast? with
  | none => exact hid
  | some r => exact hup r (List.mem_of_getLast? hlast)

theorem walk (h : Closed f P) (n : Nat) {pending : List NodeId} (hp : ∀ x ∈ pending, P x) :
    ∀ x ∈ f.walk n pending, P x := by
  induction n generalizing pending with
  | zero => exact fun _ hx => nomatch hx
  | succ n ih =>
    cases pending with
    | nil => exact fun _ hx => nomatch hx
    | cons id pending =>
      obtain ⟨hid, hrest⟩ := List.forall_mem_cons.mp hp
      have hnext : ∀ x ∈ f.children id ++ pending, P x :=
        List.forall_mem_append.mpr ⟨fun _ => h.child hid, hrest⟩
      exact List.forall_mem_cons.mpr ⟨hid, ih hnext⟩

theorem descendants (h : Closed f P) (hid : P id) : ∀ x ∈ f.descendants id, P x :=
  h.walk f.size (List.forall_mem_singleton.mpr hid)

theorem siblings (h : Closed f P) (hid : P id) : ∀ x ∈ f.siblings id, P x := by
  unfold Forest.siblings
  cases hp : f.parent id with
  | none => exact fun _ hx => nomatch hx
  | some p => exact fun _ => h.child (h.parent hid hp)

theorem previous (h : Closed f P) (ha : P a) (hb : f.previous a = some b) : P b := by
  unfold Forest.previous at hb
  split at hb
  · exact h.siblings ha b (List.mem_of_getElem? hb)
  · cases hb

theorem next (h : Closed f P) (ha : P a) (hb : f.next a = some b) : P b := by
  obtain ⟨i, -, hi⟩ := Option.bind_eq_some_iff.mp hb
  exact h.siblings ha b (List.mem_of_getElem? hi)

theorem earlier (h : Closed f P) (ha : P a) (hb : f.earlier a = some b) : P b := by
  unfold Forest.earlier at hb
  cases hprev : f.previous a with
  | none =>
    rw [hprev] at hb
    exact h.parent ha hb
  | some c =>
    rw [hprev] at hb
    cases hb
    exact h.previous ha hprev

theorem preceding (h : Closed f P) (hid : P id) : ∀ x ∈ f.preceding id, P x := by
  unfold Forest.preceding
  cases he : f.earlier id with
  | none => exact fun _ hx => nomatch hx
  | some e => exact chain_all (fun _ _ => h.earlier) f.size (h.earlier hid he)

end Closed

namespace WellFormed

variable {f : Forest}

theorem closed_existing (hf : f.WellFormed) : Closed f (· < f.size) where
  child _ := hf.child_lt
  parent _ := hf.parent_lt

theorem rootOf_of_parent_none (hf : f.WellFormed) {id : NodeId} (hp : f.parent id = none) :
    f.rootOf id = id := by
  rw [rootOf, (hf.passes_lineage id).unique (.last hp)]
  rfl

theorem rootOf_of_parent (hf : f.WellFormed) {c p : NodeId} (h : f.parent c = some p) :
    f.rootOf c = f.rootOf p := by
  obtain ⟨r, hr, -⟩ := (hf.passes_lineage p).next_getLast
  rw [rootOf, rootOf, hf.lineage_of_parent h, List.getLast?_cons, hr]
  rfl

theorem closed_tree (hf : f.WellFormed) (r : NodeId) : Closed f (f.rootOf · = r) where
  child h hc := by rw [hf.rootOf_of_parent (hf.mem_children.mp hc), h]
  parent h hp := by rw [← hf.rootOf_of_parent hp, h]

end WellFormed
end Outline.Forest

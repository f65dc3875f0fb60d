import Outline.Proofs.Forest.Growth
import Outline.Proofs.Forest.Reachable

/-!
# The way down along the last children

A document is written from its top to its end, so what is added next is hung in below a node
that is reached from the container through last children only. Such a node comes last in
pre-order.
-/

namespace Outline.Forest

open Document

variable {f g : Forest} {id c q : NodeId} {n : Nat}

/-! ## Last children -/

/-- The node `n` levels below another one, along the last children. -/
def descend (f : Forest) : Nat → NodeId → Option NodeId
  | 0, id => some id
  | n + 1, id => (f.children id).getLast?.bind (f.descend n)

theorem descend_add (f : Forest) (m n : Nat) (id : NodeId) :
    f.descend (m + n) id = (f.descend m id).bind (f.descend n) := by
  induction m generalizing id with
  | zero => rw [Nat.zero_add, descend, Option.bind_some]
  | succ m ih =>
    rw [Nat.succ_add, descend, descend, Option.bind_assoc]
    congr 1
    funext last
    exact ih last

theorem descend_succ (f : Forest) (n : Nat) (id : NodeId) :
    f.descend (n + 1) id = (f.descend n id).bind fun q => (f.children q).getLast? := by
  rw [descend_add]
  congr 1
  funext q
  rw [descend]
  cases (f.children q).getLast? <;> rfl

theorem exists_descend_of_le {m : Nat} (hm : m ≤ n) (h : f.descend n id = some q) :
    ∃ q', f.descend m id = some q' := by
  rw [show n = m + (n - m) by omega, descend_add, Option.bind_eq_some_iff] at h
  obtain ⟨q', hq', -⟩ := h
  exact ⟨q', hq'⟩

theorem WellFormed.within_of_descend (hf : f.WellFormed) (h : f.descend n id = some q) :
    f.Within q id := by
  induction n generalizing id with
  | zero =>
    obtain rfl := Option.some.inj h
    exact .refl
  | succ n ih =>
    rw [descend, Option.bind_eq_some_iff] at h
    obtain ⟨last, hlast, h⟩ := h
    exact (ih h).tail (hf.mem_children.mp (List.mem_of_getLast? hlast))

theorem WellFormed.descend_lt (hf : f.WellFormed) (hid : id < f.size)
    (h : f.descend n id = some q) : q < f.size := by
  induction n generalizing id with
  | zero =>
    obtain rfl := Option.some.inj h
    exact hid
  | succ n ih =>
    rw [descend, Option.bind_eq_some_iff] at h
    obtain ⟨last, hlast, h⟩ := h
    exact ih (hf.child_lt (List.mem_of_getLast? hlast)) h

theorem WellFormed.ascend_of_descend (hf : f.WellFormed) {k : Nat}
    (h : f.descend (n + k) id = some q) : ascend f k q = f.descend n id := by
  induction k generalizing q with
  | zero => exact h.symm
  | succ k ih =>
    rw [← Nat.add_assoc, descend_succ, Option.bind_eq_some_iff] at h
    obtain ⟨q', hq', hlast⟩ := h
    rw [ascend, hf.mem_children.mp (List.mem_of_getLast? hlast), Option.bind_some]
    exact ih hq'

theorem Grown.ascend_eq {new : List NodeId} (hg : Grown f g q new) (hf : f.WellFormed)
    (hid : id < f.size) (k : Nat) : ascend g k id = ascend f k id := by
  induction k generalizing id with
  | zero => rfl
  | succ k ih =>
    rw [ascend, ascend, hg.parent id hid]
    cases hp : f.parent id with
    | none => rfl
    | some p => exact ih (hf.parent_lt hp)

/-! ## Hanging in at the end -/

section Hang

variable (hf : f.WellFormed) (hg : Grown f g q [f.size]) (hid : id < f.size)
  (hd : f.descend n id = some q)

include hf hg hid hd

theorem descend_hang_of_le {k : Nat} (hk : k ≤ n) : g.descend k id = f.descend k id := by
  induction n generalizing id k with
  | zero =>
    obtain rfl := Nat.le_zero.mp hk
    rfl
  | succ n ih =>
    cases k with
    | zero => rfl
    | succ k =>
      rw [descend, Option.bind_eq_some_iff] at hd
      obtain ⟨last, hlast, hd⟩ := hd
      have hmem := List.mem_of_getLast? hlast
      have hne : id ≠ q := by
        rintro rfl
        exact hf.not_within_child (hf.mem_children.mp hmem) (hf.within_of_descend hd)
      have hch : g.children id = f.children id := by
        rw [hg.children id hid, if_neg hne, List.append_nil]
      rw [descend, descend, hch, hlast, Option.bind_some, Option.bind_some]
      exact ih (hf.child_lt hmem) hd (Nat.le_of_succ_le_succ hk)

theorem descend_hang : g.descend (n + 1) id = some f.size := by
  rw [descend_succ, descend_hang_of_le hf hg hid hd (Nat.le_refl n), hd, Option.bind_some,
    hg.children q (hf.descend_lt hid hd), if_pos rfl, List.getLast?_concat]

theorem descend_hang_of_lt (hnew : g.children f.size = []) {k : Nat} (hk : n + 1 < k) :
    g.descend k id = none := by
  obtain ⟨j, rfl⟩ : ∃ j, k = (n + 1) + (j + 1) := ⟨k - (n + 2), by omega⟩
  rw [descend_add, descend_hang hf hg hid hd, Option.bind_some, descend, hnew]
  rfl

theorem descendants_hang (hnew : g.children f.size = []) :
    g.descendants id = f.descendants id ++ [f.size] := by
  have hother : ∀ c, ¬ f.Within q c → (∀ x, f.Within x c → x < f.size) →
      g.descendants c = f.descendants c := by
    intro c hc hlt
    refine hf.descendants_congr hg.wf fun x hx => ?_
    have hne : x ≠ q := by
      rintro rfl
      exact hc hx
    rw [hg.children x (hlt x hx), if_neg hne, List.append_nil]
  have hbelow : ∀ {c p}, f.parent c = some p → ∀ x, f.Within x c → x < f.size := by
    intro c p hp x hx
    rcases Relation.ReflTransGen.cases_head hx with rfl | ⟨y, hy, -⟩
    · exact lt_size_of_parent hp
    · exact lt_size_of_parent hy
  have hmap : ∀ {p : NodeId} (ids : List NodeId),
      (∀ c ∈ ids, f.parent c = some p ∧ ¬ f.Within q c) →
      ids.flatMap g.descendants = ids.flatMap f.descendants := by
    intro p ids hids
    exact List.flatMap_congr fun c hc => hother c (hids c hc).2 (hbelow (hids c hc).1)
  induction n generalizing id with
  | zero =>
    obtain rfl := Option.some.inj hd
    have hlast : g.descendants f.size = [f.size] := by rw [hg.wf.descendants_eq, hnew]; rfl
    rw [hg.wf.descendants_eq, hf.descendants_eq, hg.children id hid, if_pos rfl,
      List.flatMap_append, hmap, List.flatMap_singleton, hlast]
    · rfl
    · intro c hc
      have hp := hf.mem_children.mp hc
      exact ⟨hp, hf.not_within_child hp⟩
  | succ n ih =>
    rw [descend, Option.bind_eq_some_iff] at hd
    obtain ⟨last, hlast, hd⟩ := hd
    have hmem := List.mem_of_getLast? hlast
    have hparent := hf.mem_children.mp hmem
    have hwithin := hf.within_of_descend hd
    have hne : id ≠ q := by
      rintro rfl
      exact hf.not_within_child hparent hwithin
    obtain ⟨front, hfront⟩ := List.getLast?_eq_some_iff.mp hlast
    have hrest : ∀ c ∈ front, f.parent c = some id ∧ ¬ f.Within q c := by
      intro c hc
      have hp : f.parent c = some id := hf.mem_children.mp (by rw [hfront]; simp [hc])
      refine ⟨hp, fun hw => ?_⟩
      obtain rfl := hf.eq_of_within_children hp hparent hw hwithin
      have hnodup := hf.nodup id
      rw [hfront] at hnodup
      exact (List.nodup_append.mp hnodup).2.2 c hc c (by simp) rfl
    rw [hg.wf.descendants_eq, hf.descendants_eq, hg.children id hid, if_neg hne, List.append_nil,
      hfront, List.flatMap_append, List.flatMap_append, hmap front hrest, List.flatMap_singleton,
      List.flatMap_singleton, ih (hf.child_lt hmem) hd]
    simp

end Hang

end Outline.Forest

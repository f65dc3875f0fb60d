import Outline.Proofs.Forest.Copy
import Outline.Proofs.Forest.Related

/-!
# Mirrored trees

Where nodes are paired off in such a way that names, children and parents are paired, every walk
meets paired nodes, place by place. A tree and its copy are such a pair: the nodes at the end
of the same path belong together.
-/

namespace Outline

open List

namespace Forest

/-- Nodes are paired off in a way that no link can tell apart. -/
structure Mirror (f : Forest) (R : NodeId → NodeId → Prop) : Prop where
  unique : Relator.BiUnique R
  name : ∀ {x y}, R x y → f.name x = f.name y
  children : ∀ {x y}, R x y → Forall₂ R (f.children x) (f.children y)
  parent : ∀ {x y}, R x y → Option.Rel R (f.parent x) (f.parent y)

namespace Mirror

variable {f : Forest} {R : NodeId → NodeId → Prop} {x y : NodeId}

/-! ## Walks -/

theorem rootOf (hm : Mirror f R) (h : R x y) : R (f.rootOf x) (f.rootOf y) := by
  have hup : Forall₂ R (f.lineage x) (f.lineage y) := rel_chain (fun _ _ => hm.parent) f.size h
  rw [Forest.rootOf, Forest.rootOf]
  rcases rel_option_cases (rel_getLast? hup) with ⟨hx, hy⟩ | ⟨x', y', hx, hy, h'⟩
  · rwa [hx, hy]
  · rwa [hx, hy]

theorem siblings (hm : Mirror f R) (h : R x y) : Forall₂ R (f.siblings x) (f.siblings y) := by
  rw [Forest.siblings, Forest.siblings]
  rcases rel_option_cases (hm.parent h) with ⟨hx, hy⟩ | ⟨p, q, hx, hy, hp⟩
  · rw [hx, hy]
    exact .nil
  · rw [hx, hy]
    exact hm.children hp

theorem place?_eq (hm : Mirror f R) (h : R x y) : f.place? x = f.place? y :=
  rel_idxOf? hm.unique (hm.siblings h) h

theorem previous (hm : Mirror f R) (h : R x y) : Option.Rel R (f.previous x) (f.previous y) := by
  rw [Forest.previous, Forest.previous, hm.place?_eq h]
  split
  · exact rel_getElem? (hm.siblings h) _
  · exact .none

theorem next (hm : Mirror f R) (h : R x y) : Option.Rel R (f.next x) (f.next y) := by
  rw [Forest.next, Forest.next, hm.place?_eq h]
  cases f.place? y with
  | none => exact .none
  | some i => exact rel_getElem? (hm.siblings h) (i + 1)

theorem earlier (hm : Mirror f R) (h : R x y) : Option.Rel R (f.earlier x) (f.earlier y) :=
  rel_orElse (hm.previous h) (hm.parent h)

theorem preceding (hm : Mirror f R) (h : R x y) :
    Forall₂ R (f.preceding x) (f.preceding y) := by
  rw [Forest.preceding, Forest.preceding]
  rcases rel_option_cases (hm.earlier h) with ⟨hx, hy⟩ | ⟨x', y', hx, hy, h'⟩
  · rw [hx, hy]
    exact .nil
  · rw [hx, hy]
    exact rel_chain (fun _ _ => hm.earlier) f.size h'

theorem walk (hm : Mirror f R) (n : Nat) {l l' : List NodeId} (h : Forall₂ R l l') :
    Forall₂ R (f.walk n l) (f.walk n l') := by
  induction n generalizing l l' with
  | zero => exact .nil
  | succ n ih =>
    cases h with
    | nil => exact .nil
    | cons hx hrest => exact .cons hx (ih (rel_append (hm.children hx) hrest))

theorem descendants (hm : Mirror f R) (h : R x y) :
    Forall₂ R (f.descendants x) (f.descendants y) :=
  hm.walk f.size (.cons h .nil)

theorem exists_of_within (hm : Mirror f R) (hf : f.WellFormed) {a b : NodeId} (hab : R a b)
    (hx : f.Within x a) : ∃ y, R x y ∧ f.Within y b := by
  induction hx using Relation.ReflTransGen.head_induction_on with
  | refl => exact ⟨b, hab, .refl⟩
  | @head c p hp _ ih =>
    obtain ⟨q, hpq, hq⟩ := ih
    obtain ⟨i, hi⟩ := mem_iff_getElem?.mp (hf.mem_children.mpr hp)
    rcases rel_option_cases (rel_getElem? (hm.children hpq) i) with ⟨hnone, -⟩ | ⟨_, y, hc, hy, h⟩
    · rw [hi] at hnone
      cases hnone
    · obtain rfl := Option.some.inj (hi.symm.trans hc)
      exact ⟨y, h, .head (hf.mem_children.mp (mem_of_getElem? hy)) hq⟩

end Mirror

/-! ## Nodes at the end of the same path -/

/-- The same path of children leads from `a` to the one node and from `b` to the other. -/
def Counterparts (f : Forest) (a b x y : NodeId) : Prop :=
  ∃ path : List Nat, f.follow a (path.map .child) = some x ∧ f.follow b (path.map .child) = some y

variable {f : Forest} {a b x y : NodeId} {path path' : List Nat} {low : Nat}

theorem follow_path_concat {place : Nat} :
    f.follow a ((path ++ [place]).map .child) = some x ↔
      ∃ p, f.follow a (path.map .child) = some p ∧ (f.children p)[place]? = some x := by
  rw [map_append, map_singleton, follow_concat, Option.bind_eq_some_iff]
  rfl

theorem WellFormed.parent_of_path (hf : f.WellFormed) {place : Nat}
    (h : f.follow a ((path ++ [place]).map .child) = some x) :
    ∃ p, f.follow a (path.map .child) = some p ∧ f.parent x = some p := by
  obtain ⟨p, hp, hx⟩ := follow_path_concat.mp h
  exact ⟨p, hp, hf.mem_children.mp (mem_of_getElem? hx)⟩

theorem WellFormed.within_of_path (hf : f.WellFormed)
    (h : f.follow a (path.map .child) = some x) : f.Within x a := by
  induction path using List.reverseRecOn generalizing x with
  | nil =>
    obtain rfl := Option.some.inj h
    exact .refl
  | append_singleton path place ih =>
    obtain ⟨p, hp, hx⟩ := hf.parent_of_path h
    exact .head hx (ih hp)

theorem WellFormed.path_unique (hf : f.WellFormed) (ha : f.parent a = none)
    (h : f.follow a (path.map .child) = some x) (h' : f.follow a (path'.map .child) = some x) :
    path = path' := by
  -- From the end: the last step is known by the parent, and the top has none.
  induction path using List.reverseRecOn generalizing x path' with
  | nil =>
    obtain rfl := Option.some.inj h
    cases path' using List.reverseRecOn with
    | nil => rfl
    | append_singleton path' place' =>
      obtain ⟨p, -, hp⟩ := hf.parent_of_path h'
      rw [ha] at hp
      cases hp
  | append_singleton path place ih =>
    cases path' using List.reverseRecOn with
    | nil =>
      obtain rfl := Option.some.inj h'
      obtain ⟨p, -, hp⟩ := hf.parent_of_path h
      rw [ha] at hp
      cases hp
    | append_singleton path' place' =>
      obtain ⟨p, hp, hx⟩ := follow_path_concat.mp h
      obtain ⟨p', hp', hx'⟩ := follow_path_concat.mp h'
      have hup := hf.mem_children.mp (mem_of_getElem? hx)
      have hup' := hf.mem_children.mp (mem_of_getElem? hx')
      obtain rfl : p = p' := Option.some.inj (hup.symm.trans hup')
      obtain ⟨hlt, hget⟩ := List.getElem?_eq_some_iff.mp hx
      obtain ⟨hlt', hget'⟩ := List.getElem?_eq_some_iff.mp hx'
      rw [ih hp hp', (hf.nodup p).getElem_inj_iff.mp (hget.trans hget'.symm)]

/-! ## A tree and its copy -/

theorem Counterparts.copyOf (h : Counterparts f a b x y) (hcopy : CopyOf f f low a b) :
    CopyOf f f low x y := by
  obtain ⟨path, hx, hy⟩ := h
  induction path using List.reverseRecOn generalizing x y with
  | nil =>
    obtain rfl := Option.some.inj hx
    obtain rfl := Option.some.inj hy
    exact hcopy
  | append_singleton path place ih =>
    obtain ⟨p, hp, hx⟩ := follow_path_concat.mp hx
    obtain ⟨q, hq, hy⟩ := follow_path_concat.mp hy
    exact (ih hp hq).turn (t := .child place) hx hy

theorem Counterparts.child (h : Counterparts f a b x y) {place : Nat} {x' y' : NodeId}
    (hx : (f.children x)[place]? = some x') (hy : (f.children y)[place]? = some y') :
    Counterparts f a b x' y' := by
  obtain ⟨path, hpx, hpy⟩ := h
  exact ⟨path ++ [place], follow_path_concat.mpr ⟨x, hpx, hx⟩,
    follow_path_concat.mpr ⟨y, hpy, hy⟩⟩

theorem CopyOf.mirror (hf : f.WellFormed) (hcopy : CopyOf f f low a b)
    (ha : f.parent a = none) (hb : f.parent b = none) : Mirror f (Counterparts f a b) where
  unique := by
    refine ⟨fun x y z hxy hzy => ?_, fun x y z hxy hxz => ?_⟩
    · obtain ⟨path, hx, hy⟩ := hxy
      obtain ⟨path', hz, hy'⟩ := hzy
      obtain rfl := hf.path_unique hb hy hy'
      exact Option.some.inj (hx.symm.trans hz)
    · obtain ⟨path, hx, hy⟩ := hxy
      obtain ⟨path', hx', hz⟩ := hxz
      obtain rfl := hf.path_unique ha hx hx'
      exact Option.some.inj (hy.symm.trans hz)
  name h := (h.copyOf hcopy).name_eq.symm
  children h := by
    refine forall₂_iff_get.mpr ⟨(h.copyOf hcopy).children.length_eq, fun i hi hi' => ?_⟩
    exact h.child (getElem?_eq_getElem hi) (getElem?_eq_getElem hi')
  parent := by
    rintro x y ⟨path, hx, hy⟩
    cases path using List.reverseRecOn with
    | nil =>
      obtain rfl := Option.some.inj hx
      obtain rfl := Option.some.inj hy
      rw [ha, hb]
      exact .none
    | append_singleton path place =>
      obtain ⟨p, hp, hx⟩ := hf.parent_of_path hx
      obtain ⟨q, hq, hy⟩ := hf.parent_of_path hy
      rw [hx, hy]
      exact .some ⟨path, hp, hq⟩

end Forest
end Outline

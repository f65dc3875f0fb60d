import Mathlib.Data.List.Cycle
import Outline.Path.Evaluate
import Outline.Proofs.Forest.Reachable
import Outline.Proofs.Forest.Siblings

/-!
# Turning among siblings

The steps to the node before and to the node behind turn the ring of siblings by one place, with the
ends of the list joined. So they undo each other, and as many steps as there are siblings make a
full turn (`apply_rotation`).
-/

namespace Outline.Path.World

variable {w : World} {x y p : NodeId}

/-! ## One step -/

theorem getElem?_orElse_head? {l : List NodeId} (hx : x ∈ l) :
    (l[l.idxOf x + 1]?.orElse fun _ => l.head?) = some (l.next x hx) := by
  have hlt := List.idxOf_lt_length_of_mem hx
  rw [List.next_eq_getElem hx]
  rcases Nat.lt_or_ge (l.idxOf x + 1) l.length with h | h
  · simp only [List.getElem?_eq_getElem h, Nat.mod_eq_of_lt h, Option.orElse_some]
  · have hend : l.idxOf x + 1 = l.length := by omega
    have hpos : 0 < l.length := by omega
    simp only [hend, List.getElem?_length, Nat.mod_self, Option.orElse_none,
      List.head?_eq_getElem?, List.getElem?_eq_getElem hpos]

theorem prev_of_idxOf_zero {l : List NodeId} (hx : x ∈ l) (h : l.idxOf x = 0) :
    l.getLast? = some (l.prev x hx) := by
  have hlast : l.length - 1 < l.length := by
    have hlt := List.idxOf_lt_length_of_mem hx
    omega
  simp only [List.prev_eq_getElem hx, h, Nat.zero_add, Nat.mod_eq_of_lt hlast,
    List.getLast?_eq_getElem?, List.getElem?_eq_getElem hlast]

theorem prev_of_idxOf_succ {l : List NodeId} {i : Nat} (hx : x ∈ l) (h : l.idxOf x = i + 1) :
    l[i]? = some (l.prev x hx) := by
  have hi : i < l.length := by
    have hlt := List.idxOf_lt_length_of_mem hx
    omega
  have hback : (i + 1 + (l.length - 1)) % l.length = i := by
    rw [show i + 1 + (l.length - 1) = i + l.length by omega, Nat.add_mod_right,
      Nat.mod_eq_of_lt hi]
  simp only [List.prev_eq_getElem hx, h, hback, List.getElem?_eq_getElem hi]

theorem nextWrapped_eq (hf : w.forest.WellFormed) (hx : x ∈ w.forest.children p) :
    w.nextWrapped x = some ((w.forest.children p).next x hx) := by
  have hp := hf.mem_children.mp hx
  rw [nextWrapped, hp, Option.bind_some, Forest.next, hf.place?_eq hp, Option.bind_some,
    Forest.siblings, hp]
  exact getElem?_orElse_head? hx

theorem previousWrapped_eq (hf : w.forest.WellFormed) (hx : x ∈ w.forest.children p) :
    w.previousWrapped x = some ((w.forest.children p).prev x hx) := by
  have hp := hf.mem_children.mp hx
  rw [previousWrapped, hp, Option.bind_some, Forest.previous, hf.place?_eq hp, Forest.siblings, hp]
  cases hi : (w.forest.children p).idxOf x with
  | zero => exact prev_of_idxOf_zero hx hi
  | succ i =>
    simp only [prev_of_idxOf_succ hx hi]
    rfl

theorem nextWrapped_previousWrapped (hf : w.forest.WellFormed) (hp : w.forest.parent x = some p) :
    (w.previousWrapped x).bind w.nextWrapped = some x := by
  have hx : x ∈ w.forest.children p := hf.mem_children.mpr hp
  rw [previousWrapped_eq hf hx, Option.bind_some, nextWrapped_eq hf (List.prev_mem _ _ hx),
    List.next_prev _ (hf.nodup p)]

theorem previousWrapped_nextWrapped (hf : w.forest.WellFormed) (hp : w.forest.parent x = some p) :
    (w.nextWrapped x).bind w.previousWrapped = some x := by
  have hx : x ∈ w.forest.children p := hf.mem_children.mpr hp
  rw [nextWrapped_eq hf hx, Option.bind_some, previousWrapped_eq hf (List.next_mem _ _ hx),
    List.prev_next _ (hf.nodup p)]

/-! ## Lists of nodes -/

theorem apply_next (identity : NodeId) (input : List NodeId) :
    w.apply identity .next input = pure (input.filterMap w.nextWrapped) := rfl

theorem apply_previous (identity : NodeId) (input : List NodeId) :
    w.apply identity .previous input = pure (input.filterMap w.previousWrapped) := rfl

theorem filterMap_filterMap_eq {g h : NodeId → Option NodeId} {input : List NodeId}
    (hgh : ∀ x ∈ input, (g x).bind h = some x) : (input.filterMap g).filterMap h = input := by
  rw [List.filterMap_filterMap, List.filterMap_congr hgh, List.filterMap_some]

/-- From a node, so many steps to the node behind. -/
def turn (w : World) (identity n : NodeId) (count : Nat) : Evaluation (List NodeId) :=
  (List.replicate count Step.next).foldlM (fun input step => w.apply identity step input) [n]

theorem turn_succ (identity n : NodeId) (count : Nat) :
    w.turn identity n (count + 1) = w.turn identity n count >>= w.apply identity .next := by
  rw [turn, turn, List.replicate_succ', List.foldlM_append]
  simp only [List.foldlM_cons, List.foldlM_nil, bind_pure]

/-- So many steps lead so many places further around the ring. -/
theorem turn_eq (hf : w.forest.WellFormed) (identity : NodeId) (hx : x ∈ w.forest.children p)
    {count : Nat} (h : (w.forest.children p)[((w.forest.children p).idxOf x + count) %
      (w.forest.children p).length]? = some y) : w.turn identity x count = pure [y] := by
  have hlt := List.idxOf_lt_length_of_mem hx
  induction count generalizing y with
  | zero =>
    rw [Nat.add_zero, Nat.mod_eq_of_lt hlt, List.getElem?_eq_getElem hlt, List.getElem_idxOf] at h
    obtain rfl := Option.some.inj h
    rfl
  | succ count ih =>
    have hplace : ((w.forest.children p).idxOf x + count) % (w.forest.children p).length <
        (w.forest.children p).length := Nat.mod_lt _ (Nat.zero_lt_of_lt hlt)
    have hnext := List.next_getElem _ (hf.nodup p) _ hplace
    rw [← Nat.add_assoc, ← Nat.mod_add_mod, List.getElem?_eq_some_iff] at h
    obtain ⟨_, rfl⟩ := h
    rw [turn_succ, ih (List.getElem?_eq_getElem hplace), pure_bind, apply_next,
      List.filterMap_cons_some (nextWrapped_eq hf (List.getElem_mem hplace)), List.filterMap_nil,
      hnext]

/-! ## Full turns -/

/-- The steps to the node before and to the node behind undo each other on every list of nodes that
have siblings. From each such node, the steps to the node behind lead once around the ring of its
siblings: they reach all of them in order, each one once, and then the node again. -/
theorem apply_rotation (hf : w.forest.WellFormed) (identity : NodeId) :
    (∀ input, (∀ x ∈ input, ∃ p, w.forest.parent x = some p) →
      w.apply identity .previous input >>= w.apply identity .next = pure input ∧
        w.apply identity .next input >>= w.apply identity .previous = pure input) ∧
      ∀ n p, w.forest.parent n = some p →
        ∃ ring, ring ~r w.forest.children p ∧ ring.Nodup ∧ ring.head? = some n ∧
          (∀ (count : Nat) (h : count < ring.length),
            w.turn identity n count = pure [ring[count]]) ∧
          w.turn identity n ring.length = pure [n] := by
  refine ⟨fun input hinput => ⟨?_, ?_⟩, fun n p hp => ?_⟩
  · rw [apply_previous, pure_bind, apply_next, filterMap_filterMap_eq]
    intro x hx
    obtain ⟨p, hp⟩ := hinput x hx
    exact nextWrapped_previousWrapped hf hp
  · rw [apply_next, pure_bind, apply_previous, filterMap_filterMap_eq]
    intro x hx
    obtain ⟨p, hp⟩ := hinput x hx
    exact previousWrapped_nextWrapped hf hp
  · have hn : n ∈ w.forest.children p := hf.mem_children.mpr hp
    have hlt := List.idxOf_lt_length_of_mem hn
    have hring := List.rotate_perm (w.forest.children p) ((w.forest.children p).idxOf n)
    refine ⟨(w.forest.children p).rotate ((w.forest.children p).idxOf n),
      .forall _ _, hring.nodup_iff.mpr (hf.nodup p), ?_, fun count h => ?_, ?_⟩
    · rw [List.head?_rotate hlt, List.getElem?_eq_getElem hlt, List.getElem_idxOf]
    · refine turn_eq hf identity hn ?_
      rw [List.getElem_rotate, Nat.add_comm count, List.getElem?_eq_getElem]
    · refine turn_eq hf identity hn ?_
      rw [List.length_rotate, Nat.add_mod_right, Nat.mod_eq_of_lt hlt,
        List.getElem?_eq_getElem hlt, List.getElem_idxOf]

/-- Three siblings, of which one stands twice in the list, and a full turn from the last of them. -/
theorem apply_rotation_threeSiblings :
    let made := (((Forest.empty.create "a" none).2.create "b" none).2.create "c" none).2
    let f := ((made.add Forest.root 1).add Forest.root 2).add Forest.root 3
    let w : World := ⟨f, fun _ => ""⟩
    f.WellFormed ∧ f.children Forest.root = [1, 2, 3] ∧
      w.apply 0 .previous [1, 3, 1] >>= w.apply 0 .next = pure [1, 3, 1] ∧
      w.turn 0 3 1 = pure [1] ∧ w.turn 0 3 2 = pure [2] ∧ w.turn 0 3 3 = pure [3] := by
  intro made f w
  have hf : f.WellFormed := by
    have hmade : Forest.Edited Forest.empty made :=
      ((Forest.Edited.create _ "a" _).trans (.create _ "b" _)).trans (.create _ "c" _)
    have hedited := ((hmade.trans (.add (p := Forest.root) (c := 1) (by decide +kernel)
      (by decide +kernel))).trans (.add (p := Forest.root) (c := 2) (by decide +kernel)
      (by decide +kernel))).trans (.add (p := Forest.root) (c := 3) (by decide +kernel)
      (by decide +kernel))
    exact hedited.wellFormed
  have hchildren : f.children Forest.root = [1, 2, 3] := by decide +kernel
  have hparents : ∀ x ∈ [1, 3, 1], f.parent x = some Forest.root := by decide +kernel
  clear_value f
  obtain ⟨hundo, hturn⟩ := apply_rotation (w := w) hf 0
  obtain ⟨ring, hrotated, -, hhead, hplaces, hfull⟩ := hturn 3 Forest.root (hparents 3 (by decide))
  have hring : ring = [3, 1, 2] := by
    have hmem : ring ∈ [1, 2, 3].cyclicPermutations :=
      List.mem_cyclicPermutations_iff.mpr (hchildren ▸ hrotated)
    have hall : ∀ l ∈ [1, 2, 3].cyclicPermutations, l.head? = some 3 → l = [3, 1, 2] := by decide
    exact hall ring hmem hhead
  subst hring
  exact ⟨hf, hchildren, (hundo [1, 3, 1] fun x hx => ⟨_, hparents x hx⟩).1, hplaces 1 (by decide),
    hplaces 2 (by decide), hfull⟩

end Outline.Path.World

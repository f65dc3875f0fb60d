import Outline.Proofs.Forest.Clones
import Outline.Proofs.Path.Copy

/-!
# Clones and their texts

A clone shares nothing with the tree that it was made from, and no document tells the two
apart.
-/

namespace Outline.Document

open Forest

variable {r : Registry} {f g : Forest} {a x : NodeId}

/-- The text of a tree does not depend on what is added elsewhere, and not on how much deeper
printing could go. -/
theorem printTree_grown (hw : ∀ entry ∈ r.writers, ModestWriter entry.2.2) {n m : Nat}
    (hnm : n ≤ m) (hx : Shallow f n x) (hin : Confined f x) (hg : Grown f g root [])
    (comments : Bool) (level : Nat) :
    printTree r g m comments level x = printTree r f n comments level x := by
  induction n generalizing m x comments level with
  | zero => exact absurd hx (not_shallow_zero f x)
  | succ n ih =>
    obtain ⟨m, rfl⟩ : ∃ k, m = k + 1 := ⟨m - 1, by omega⟩
    have hchildren : ∀ c < f.size, g.children c = f.children c := fun c hc => by
      simpa using hg.children c hc
    have hbelow : (f.children x).flatMap (printTree r g m comments (level + 1)) =
        (f.children x).flatMap (printTree r f n comments (level + 1)) :=
      List.flatMap_congr fun c hc =>
        ih (Nat.le_of_succ_le_succ hnm) (hx.child hc) (hin.child hc) _ _
    rw [printTree, printTree, hg.name x hin.lt, hg.value x hin.lt, hchildren x hin.lt, hbelow]
    congr 2
    refine lineText_congr_value (fun v hv => describeWith_congr hw fun c hc => ?_) _ _ _
    have hvalue : f.value x = some (.node c) := by rw [hv, hc]
    have hc := hin.turn (turn_inside.mpr hvalue)
    rw [hchildren c hc.lt]
    exact congrArg _ (List.flatMap_congr fun y hy =>
      ih (Nat.le_of_succ_le_succ hnm) (hx.inside hvalue hy) (hc.child hy) _ _)

/-- Cloning ends for every node from which finitely many routes lead, all of them to nodes of the
forest. The clone is a free tree of new nodes, one for each route; older nodes stay as they are.
Original and clone have the same text, and they are equal unless a value is not equal to
itself. -/
theorem deepClone_exact (hf : f.WellFormed) (ha : Confined f a) (hfin : (f.routes a).Finite) :
    ∃ copy g, f.deepClone a = (copy, g) ∧ Copied a f (copy, g) ∧ Cloned f g a copy ∧
      (∀ r : Registry, (∀ entry ∈ r.writers, BlindWriter entry.2.2) →
        (∀ entry ∈ r.writers, ModestWriter entry.2.2) → ∀ comments,
          Printed r f comments 0 [a] (printNodes r f comments [a]).toList ∧
          Printed r g comments 0 [copy] (printNodes r g comments [copy]).toList ∧
          printNodes r g comments [a] = printNodes r f comments [a] ∧
          printNodes r g comments [copy] = printNodes r f comments [a]) ∧
      (structurallyEqual g a g copy = true ↔ f.Regular a) ∧
      (structurallyEqual g copy g a = true ↔ f.Regular a) := by
  have hshallow := ha.shallow hfin
  have hcopied : Copied a f (f.deepClone a) := copied_of_shallow hshallow ha (.refl hf root)
  have hcopies : Copies f f a (f.deepClone a) := copies_copyTree hshallow ha (.refl hf root)
  generalize f.deepClone a = made at hcopied hcopies
  obtain ⟨copy, g⟩ := made
  have hgrown : Grown f g root [] := hcopies.1.grown
  have hsource : CopyOf g g f.size a copy := hcopies.2.grown_source ha hgrown
  have hroom : Shallow g g.size a := fun route b hb =>
    (hshallow.mono hgrown.size_le) route b (ha.follow_eq hgrown route ▸ hb)
  have hroom' : Shallow g g.size copy := by
    intro route b hb
    have hroute : route ∈ g.routes copy := by simp [routes, hb]
    rw [hsource.routes_eq] at hroute
    obtain ⟨b', hb'⟩ := Option.isSome_iff_exists.mp hroute
    exact hroom route b' hb'
  have hequal : structurallyEqual g a g copy = true ↔ f.Regular a :=
    (sameTree_copy hroom hsource).trans (ha.regular_iff hgrown)
  refine ⟨copy, g, rfl, hcopied, cloned_of_copies hf hcopies, ?_, hequal, ?_⟩
  · intro r hblind hmodest comments
    have hold : printNodes r g comments [a] = printNodes r f comments [a] := by
      simp only [printNodes, List.flatMap_singleton,
        printTree_grown hmodest hgrown.size_le hshallow ha hgrown comments 0]
    have hnew : printNodes r g comments [copy] = printNodes r g comments [a] := by
      simp only [printNodes, List.flatMap_singleton,
        printTree_copy hblind g.size comments 0 hsource]
    refine ⟨?_, ?_, hold, hnew.trans hold⟩
    · rw [printNodes, String.toList_ofList]
      exact printed_of_shallow hmodest (by simpa using hshallow) comments 0
    · rw [printNodes, String.toList_ofList]
      exact printed_of_shallow hmodest (by simpa using hroom') comments 0
  · rw [structurallyEqual, sameTree_comm]
    exact hequal

/-- The second child holds the first one as its nested tree. So two routes lead to the first
child, and it is copied twice. -/
theorem deepClone_exact_shared :
    let f := (((empty.create "x" none).2.create "y" (some (.node 1))).2.add root 1).add root 2
    f.WellFormed ∧ f.Confined root ∧ (f.routes root).Finite ∧ (f.routes root).ncard = 4 ∧
      ∃ g, f.deepClone root = (3, g) ∧ Cloned f g root 3 ∧
        printNodes Registry.builtin g false [3] = "\"\"\r\n   x\r\n   y:node:\"\"\r\n" ∧
        structurallyEqual g root g 3 = true := by
  intro f
  have hf : f.WellFormed := by
    refine (Edited.extends ?_ wellFormed_empty).1
    exact (((Edited.create empty "x" none).trans (.create _ "y" _)).trans
      (.add (by decide) (by decide))).trans (.add (by decide) (by decide))
  have hvalue : ∀ id, f.value id = if id = 2 then some (.node 1) else none := by
    intro id
    match id with
    | 0 | 1 | 2 => decide
    | n + 3 => exact value_of_size_le (Nat.le_add_left 3 n)
  have hin : Confined f root := by
    refine confined_of_turn (hf.turn_lt fun id c h => ?_) hf.root_lt
    rw [hvalue] at h
    split at h <;> cases h
    decide
  -- Turns lead down in this order of the nodes.
  let rank : NodeId → Nat := fun id => if id = 0 then 2 else if id = 2 then 1 else 0
  have hturn : ∀ {a t b}, f.turn a t = some b → rank b < rank a := by
    intro a t b ht
    cases t with
    | inside =>
      rw [turn_inside, hvalue] at ht
      split at ht <;> cases ht
      subst a
      decide
    | child place =>
      have hb := List.mem_of_getElem? ht
      match a with
      | 0 =>
        rw [show f.children 0 = [1, 2] by decide, List.mem_pair] at hb
        rcases hb with rfl | rfl <;> decide
      | 1 => cases hb
      | 2 => cases hb
      | n + 3 =>
        rw [turn_of_size_le (Nat.le_add_left 3 n)] at ht
        cases ht
  have hfin : (f.routes root).Finite := hin.finite_routes_iff.mpr fun _ _ _ _ hr =>
    not_circle_of_rank rank hturn hr
  obtain ⟨copy, g, hclone, -, hcloned, hprint, hequal, -⟩ := deepClone_exact hf hin hfin
  have hcopy : copy = 3 := by
    rw [show copy = (f.deepClone root).1 by rw [hclone]]
    decide
  have hsize : g.size = 7 := by
    rw [show g = (f.deepClone root).2 by rw [hclone]]
    decide
  obtain rfl := hcopy
  have hcount := hcloned.size
  refine ⟨hf, hin, hfin, ?_, g, hclone, hcloned, ?_, hequal.mpr fun route x v _ hv => ?_⟩
  · rw [hsize, show f.size = 3 by decide] at hcount
    omega
  · rw [(hprint _ blindWriter_builtin modestWriter_builtin false).2.2.2]
    decide +kernel
  · rw [hvalue] at hv
    split at hv <;> cases hv
    exact id

end Outline.Document

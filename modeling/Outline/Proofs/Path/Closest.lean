import Outline.Path.Evaluate
import Outline.Proofs.Forest.Preceding
import Outline.Proofs.Forest.Reachable

/-!
# The closest node of a name

The step to a name further up looks at the candidates against the pre-order of the tree, so the
first one that it finds is the last one of that name in the tree (`apply_ancestor_closest`).
-/

namespace Outline

open Forest

/-- In a list that goes down, what is found first is the topmost of all that could be found. -/
theorem find?_topmost {l : List NodeId} {place : NodeId → Nat} {q : NodeId → Bool} {c : NodeId}
    (hl : l.Pairwise fun a b => place b < place a) (h : l.find? q = some c) :
    ∀ b ∈ l, q b = true → b ≠ c → place b < place c := by
  obtain ⟨-, front, rest, rfl, hfront⟩ := List.find?_eq_some_iff_append.mp h
  intro b hb hq hne
  have hrest : b ∈ rest := by
    rcases List.mem_append.mp hb with hb | hb
    · simpa [hq] using hfront b hb
    · exact (List.mem_cons.mp hb).resolve_left hne
  exact List.rel_of_pairwise_cons (List.pairwise_append.mp hl).2.1 hrest

namespace Path

variable {w : World}

/-- The search goes back over the candidates, and over each of them once: it comes further to the
front of the tree with every step, and so it ends. It gives the candidate of the name that comes
last in the tree, or nothing if no candidate has the name. -/
theorem apply_ancestor_closest (hf : w.forest.WellFormed) (name : String) (n : NodeId)
    (rest : List NodeId) :
    Passes w.forest.earlier n (n :: w.forest.preceding n) ∧
      (∀ c, c ∈ w.forest.preceding n ↔ w.forest.Candidate n c) ∧
      (∀ c ∈ n :: w.forest.preceding n, c ∈ w.forest.treeOrder n) ∧
      ((n :: w.forest.preceding n).Pairwise fun a b =>
        (w.forest.treeOrder n).idxOf b < (w.forest.treeOrder n).idxOf a) ∧
      ∀ identity,
        (∃ c, w.forest.Candidate n c ∧ w.forest.name c = name ∧
          (∀ b, w.forest.Candidate n b → w.forest.name b = name → b ≠ c →
            (w.forest.treeOrder n).idxOf b < (w.forest.treeOrder n).idxOf c) ∧
          w.apply identity (.ancestor name) (n :: rest) = pure [c]) ∨
        ((∀ c, w.forest.Candidate n c → w.forest.name c ≠ name) ∧
          w.apply identity (.ancestor name) (n :: rest) = pure []) := by
  have hmem : ∀ {c}, c ∈ w.forest.preceding n ↔ w.forest.Candidate n c := hf.mem_preceding
  have hsub := hf.preceding_sublist n
  have hdown := hf.pairwise_preceding n
  refine ⟨hf.passes_earlier n, fun c => hmem, fun c hc => hsub.subset (List.mem_reverse.mpr hc),
    hdown, fun identity => ?_⟩
  have happly : w.apply identity (.ancestor name) (n :: rest) =
      pure ((w.forest.preceding n).find? fun e => w.forest.name e == name).toList := rfl
  rw [happly]
  cases hfind : (w.forest.preceding n).find? fun e => w.forest.name e == name with
  | none =>
    refine .inr ⟨fun c hc => ?_, rfl⟩
    simpa using List.find?_eq_none.mp hfind c (hmem.mpr hc)
  | some c =>
    have htop := find?_topmost (List.pairwise_cons.mp hdown).2 hfind
    have hc := hmem.mp (List.mem_of_find?_eq_some hfind)
    refine .inl ⟨c, hc, ?_, fun b hb hname hne => ?_, rfl⟩
    · simpa using List.find?_some hfind
    · exact htop b (hmem.mpr hb) (beq_iff_eq.mpr hname) hne

/-- Of two candidates of the name, the older sibling of the parent is found and not the grandparent.
A younger sibling, which has the name as well, is none. -/
theorem apply_ancestor_closest_uncle :
    let made := ((((empty.create "a" none).2.create "a" none).2.create "b" none).2.create
      "c" none).2.create "a" none
    let f := ((((made.2.add root 1).add 1 2).add 1 3).add 3 4).add 3 5
    let w : World := ⟨f, fun _ => ""⟩
    f.WellFormed ∧ f.treeOrder 4 = [0, 1, 2, 3, 4, 5] ∧
      f.Candidate 4 2 ∧ f.Candidate 4 1 ∧ ¬ f.Candidate 4 5 ∧
      w.apply 4 (.ancestor "a") [4] = pure [2] := by
  intro made f w
  have hf : f.WellFormed := by
    have hmade : Edited empty made.2 :=
      ((((Edited.create empty "a" none).trans (.create _ "a" none)).trans
        (.create _ "b" none)).trans (.create _ "c" none)).trans (.create _ "a" none)
    have hupper := (hmade.trans (.add (p := root) (c := 1) (by decide +kernel)
      (by decide +kernel))).trans (.add (p := 1) (c := 2) (by decide +kernel) (by decide +kernel))
    have hlower := ((hupper.trans (.add (p := 1) (c := 3) (by decide +kernel)
      (by decide +kernel))).trans (.add (p := 3) (c := 4) (by decide +kernel)
      (by decide +kernel))).trans (.add (p := 3) (c := 5) (by decide +kernel) (by decide +kernel))
    exact hlower.wellFormed
  have horder : f.treeOrder 4 = [0, 1, 2, 3, 4, 5] := by decide +kernel
  have hback : f.preceding 4 = [3, 2, 1, 0] := by decide +kernel
  have hnames : f.name 2 = "a" ∧ ∀ c ∈ [3, 2, 1, 0], f.name c = "a" → c = 1 ∨ c = 2 := by
    decide +kernel
  clear_value f
  obtain ⟨-, hmem, -, -, happly⟩ := apply_ancestor_closest (w := w) hf "a" 4 []
  have hcand : ∀ c, c ∈ [3, 2, 1, 0] ↔ f.Candidate 4 c := fun c => hback ▸ hmem c
  have hone := (hcand 1).mp (by decide)
  have htwo := (hcand 2).mp (by decide)
  refine ⟨hf, horder, htwo, hone, (hcand 5).not.mp (by decide), ?_⟩
  rcases happly 4 with ⟨c, hc, hname, hlast, hresult⟩ | ⟨hnone, -⟩
  · rcases hnames.2 c ((hcand c).mpr hc) hname with rfl | rfl
    · have hlt : (f.treeOrder 4).idxOf 2 < (f.treeOrder 4).idxOf 1 :=
        hlast 2 htwo hnames.1 (by decide)
      rw [horder] at hlt
      exact absurd hlt (by decide)
    · exact hresult
  · exact absurd hnames.1 (hnone 2 htwo)

end Path
end Outline

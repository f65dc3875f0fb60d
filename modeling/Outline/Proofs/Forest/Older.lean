import Outline.Proofs.Forest.Closed
import Outline.Proofs.Forest.Descendants
import Outline.Proofs.Forest.Siblings

/-!
# Older nodes

Looking for a node further up goes back among the siblings and then on from the parent. This
ends in a well-formed forest, as the other walks do.
-/

namespace Outline.Forest

variable {f : Forest} {id a b p : NodeId}

namespace WellFormed

theorem earlier_lt (hf : f.WellFormed) (h : f.earlier a = some b) : b < f.size := by
  cases hp : f.parent a with
  | none =>
    rw [earlier_of_parent_none hp] at h
    cases h
  | some p => exact hf.closed_existing.earlier (lt_size_of_parent hp) h

/-- The outer induction goes up, the inner one goes back among the children of one node. -/
theorem acc_earlier (hf : f.WellFormed) (id : NodeId) :
    Acc (fun b a => f.earlier a = some b) id := by
  induction id using hf.climbs.induction with
  | _ id ih =>
    cases hp : f.parent id with
    | none =>
      refine ⟨id, fun b hb => ?_⟩
      rw [earlier_of_parent_none hp] at hb
      cases hb
    | some p =>
      have hup := ih p hp
      obtain ⟨older, younger, h⟩ := hf.exists_siblings hp
      clear ih hp
      induction older using List.reverseRecOn generalizing id younger with
      | nil =>
        refine ⟨id, fun b hb => ?_⟩
        obtain rfl : p = b := Option.some.inj ((hf.earlier_of_split h).symm.trans hb)
        exact hup
      | append_singleton older c ihc =>
        refine ⟨id, fun b hb => ?_⟩
        have hback : f.earlier id = some c := by simpa using hf.earlier_of_split h
        obtain rfl : c = b := Option.some.inj (hback.symm.trans hb)
        exact ihc c (id :: younger) (by simpa using h)

/-- Going back from any node ends within the bound. -/
theorem passes_preceding (hf : f.WellFormed) (h : f.earlier id = some a) :
    Passes f.earlier a (f.preceding id) := by
  obtain ⟨l, hl⟩ := Passes.exists_of_acc (hf.acc_earlier a)
  have hlen : l.length ≤ f.size := by
    refine length_le_of_nodup hl.nodup fun x hx => ?_
    rcases Relation.ReflTransGen.cases_tail (hl.mem_iff.mp hx) with rfl | ⟨y, _, hy⟩
    · exact hf.earlier_lt h
    · exact hf.earlier_lt hy
  simp only [preceding, h]
  rw [hl.chain_eq hlen]
  exact hl

end WellFormed

/-- The loops behind the walks end at every node, and the walks are what the loops meet. -/
structure WalksEnd (f : Forest) : Prop where
  lineage : ∀ id, Passes f.parent id (f.lineage id)
  descendants : ∀ id, Visits f [id] (f.descendants id)
  preceding : ∀ id a, f.earlier id = some a → Passes f.earlier a (f.preceding id)

theorem WellFormed.walksEnd (hf : f.WellFormed) : f.WalksEnd where
  lineage := hf.passes_lineage
  descendants id := (hf.treeOf_descendants id).covers.visits
  preceding _ _ h := hf.passes_preceding h

end Outline.Forest

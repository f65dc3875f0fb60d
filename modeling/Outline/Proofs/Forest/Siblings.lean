import Mathlib.Data.List.Basic
import Mathlib.Data.List.Induction
import Outline.Proofs.Forest.WellFormed

/-!
# Older and younger siblings

In a well-formed forest a node stands in one place of the list that it is in, so the list is split
around it in one way. The split tells the neighbours of the node, and where going back leads.
-/

namespace Outline.Forest

variable {f : Forest} {id p c : NodeId}

theorem WellFormed.place?_eq (hf : f.WellFormed) (hp : f.parent id = some p) :
    f.place? id = some ((f.children p).idxOf id) := by
  have hmem : id ∈ f.children p := hf.mem_children.mpr hp
  have hlt : (f.children p).idxOf id < (f.children p).length := List.idxOf_lt_length_iff.mpr hmem
  rw [place?, siblings, hp]
  exact List.findIdx?_eq_some_iff_findIdx_eq.mpr ⟨hlt, rfl⟩

theorem WellFormed.exists_siblings (hf : f.WellFormed) (hp : f.parent id = some p) :
    ∃ older younger, f.children p = older ++ id :: younger :=
  List.append_of_mem (hf.mem_children.mpr hp)

/-- `c` stands in front of `id` in the list of their parent. -/
def Older (f : Forest) (id c : NodeId) : Prop :=
  ∃ p older younger, f.children p = older ++ id :: younger ∧ c ∈ older

section

variable {older younger : List NodeId} (hf : f.WellFormed)
  (h : f.children p = older ++ id :: younger)

include hf h

theorem WellFormed.parent_of_split : f.parent id = some p :=
  hf.mem_children.mp (by rw [h]; simp)

theorem WellFormed.not_mem_older : id ∉ older := by
  have hnodup := hf.nodup p
  rw [h] at hnodup
  exact fun hid => (List.nodup_append.mp hnodup).2.2 id hid id List.mem_cons_self rfl

theorem WellFormed.place?_of_split : f.place? id = some older.length := by
  rw [hf.place?_eq (hf.parent_of_split h), h, List.idxOf_append_of_notMem (hf.not_mem_older h),
    List.idxOf_cons_self, Nat.add_zero]

theorem WellFormed.previous_of_split : f.previous id = older.getLast? := by
  rw [previous, hf.place?_of_split h, siblings, hf.parent_of_split h]
  cases older using List.reverseRecOn with
  | nil => rfl
  | append_singleton older c => simp [h]

theorem WellFormed.earlier_of_split : f.earlier id = some (older.getLast?.getD p) := by
  rw [earlier, hf.previous_of_split h, hf.parent_of_split h]
  cases older.getLast? <;> rfl

theorem WellFormed.older_iff : f.Older id c ↔ c ∈ older := by
  refine ⟨?_, fun hc => ⟨p, older, younger, h, hc⟩⟩
  rintro ⟨q, older', younger', hq, hc⟩
  obtain rfl : p = q :=
    Option.some.inj ((hf.parent_of_split h).symm.trans (hf.parent_of_split hq))
  have hplace : older.length = older'.length :=
    Option.some.inj ((hf.place?_of_split h).symm.trans (hf.place?_of_split hq))
  rwa [(List.append_inj (h.symm.trans hq) hplace).1]

end

theorem earlier_of_parent_none (hp : f.parent id = none) : f.earlier id = none := by
  simp [earlier, previous, place?, siblings, hp]

theorem WellFormed.not_older_of_parent_none (hf : f.WellFormed) (hp : f.parent id = none) :
    ¬ f.Older id c := by
  rintro ⟨p, older, younger, h, -⟩
  rw [hf.parent_of_split h] at hp
  cases hp

end Outline.Forest

import Mathlib.Order.WellFounded
import Mathlib.Tactic.Common
import Outline.Forest.Walk

/-!
# Walks without a bound

The loops behind the walks, as relations that know no bound: `Passes` goes on along one link
until nothing follows, and `Visits` works off a stack of nodes. A bounded walk agrees with its
loop as soon as the bound is not below the number of elements that the loop meets.
-/

namespace Outline.Forest

/-- A list of different numbers below `n` has at most `n` elements. -/
theorem length_le_of_nodup {l : List Nat} {n : Nat} (hn : l.Nodup) (hl : ∀ x ∈ l, x < n) :
    l.length ≤ n := by
  have hsub : l ⊆ List.range n := fun x hx => List.mem_range.mpr (hl x hx)
  simpa using hn.length_le_of_subset hsub

section Passes

variable {α : Type} {next : α → Option α}

/-- Going along `next` from `a` ends, and meets the elements of the list. -/
inductive Passes (next : α → Option α) : α → List α → Prop
  | last {a : α} (h : next a = none) : Passes next a [a]
  | step {a b : α} {l : List α} (h : next a = some b) (hl : Passes next b l) :
      Passes next a (a :: l)

theorem Passes.unique {a : α} {l l' : List α} (h : Passes next a l) (h' : Passes next a l') :
    l = l' := by
  induction h generalizing l' with
  | last h =>
    cases h' with
    | last => rfl
    | step h₂ => simp [h] at h₂
  | step h _ ih =>
    cases h' with
    | last h₂ => simp [h] at h₂
    | step h₂ hl₂ =>
      obtain rfl : _ = _ := Option.some.inj (h.symm.trans h₂)
      rw [ih hl₂]

theorem Passes.exists_of_acc {a : α} (h : Acc (fun b a => next a = some b) a) :
    ∃ l, Passes next a l := by
  induction h with
  | intro a _ ih =>
    cases hn : next a with
    | none => exact ⟨[a], .last hn⟩
    | some b =>
      obtain ⟨l, hl⟩ := ih b hn
      exact ⟨a :: l, .step hn hl⟩

theorem Passes.suffix_of_mem {a b : α} {l : List α} (h : Passes next a l) (hb : b ∈ l) :
    ∃ l', Passes next b l' ∧ l' <:+ l := by
  induction h with
  | last h =>
    obtain rfl := List.mem_singleton.mp hb
    exact ⟨[b], .last h, List.suffix_rfl⟩
  | @step a c l h hl ih =>
    rcases List.mem_cons.mp hb with rfl | hb
    · exact ⟨b :: l, .step h hl, List.suffix_rfl⟩
    · obtain ⟨l', hl', hs⟩ := ih hb
      exact ⟨l', hl', hs.trans (List.suffix_cons a l)⟩

theorem Passes.nodup {a : α} {l : List α} (h : Passes next a l) : l.Nodup := by
  induction h with
  | last => simp
  | @step a b l h hl ih =>
    refine List.nodup_cons.mpr ⟨fun ha => ?_, ih⟩
    obtain ⟨l', hl', hs⟩ := hl.suffix_of_mem ha
    have heq : l' = a :: l := hl'.unique (.step h hl)
    have hlen := hs.length_le
    simp only [heq, List.length_cons] at hlen
    omega

theorem Passes.mem_iff {a b : α} {l : List α} (h : Passes next a l) :
    b ∈ l ↔ Relation.ReflTransGen (fun x y => next x = some y) a b := by
  induction h with
  | @last a h =>
    rw [List.mem_singleton, Relation.ReflTransGen.cases_head_iff (a := a)]
    simp [h, eq_comm]
  | @step a c l h hl ih =>
    rw [List.mem_cons, ih, Relation.ReflTransGen.cases_head_iff (a := a)]
    simp [h, eq_comm]

theorem Passes.next_getLast {a : α} {l : List α} (h : Passes next a l) :
    ∃ b, l.getLast? = some b ∧ next b = none := by
  induction h with
  | @last a h => exact ⟨a, rfl, h⟩
  | @step a c l h hl ih =>
    obtain ⟨b, hb, hn⟩ := ih
    exact ⟨b, by rw [List.getLast?_cons, hb]; rfl, hn⟩

/-- A bound that is not below the number of elements on the way changes nothing. -/
theorem Passes.chain_eq {a : α} {l : List α} (h : Passes next a l) {n : Nat}
    (hn : l.length ≤ n) : chain next n a = l := by
  induction h generalizing n with
  | last h =>
    obtain ⟨n, rfl⟩ : ∃ m, n = m + 1 := ⟨n - 1, by simp at hn; omega⟩
    simp [chain, h]
  | step h _ ih =>
    obtain ⟨n, rfl⟩ : ∃ m, n = m + 1 := ⟨n - 1, by simp at hn; omega⟩
    have htail := ih (n := n) (by simpa using hn)
    simp [chain, h, htail]

end Passes

/-- Working off a stack of nodes ends, and visits the nodes of the second list. -/
inductive Visits (f : Forest) : List NodeId → List NodeId → Prop
  | done : Visits f [] []
  | visit {id : NodeId} {pending out : List NodeId} (h : Visits f (f.children id ++ pending) out) :
      Visits f (id :: pending) (id :: out)

theorem Visits.walk_eq {f : Forest} {pending out : List NodeId} (h : Visits f pending out)
    {n : Nat} (hn : out.length ≤ n) : f.walk n pending = out := by
  induction h generalizing n with
  | done => cases n <;> rfl
  | visit _ ih =>
    obtain ⟨n, rfl⟩ : ∃ m, n = m + 1 := ⟨n - 1, by simp at hn; omega⟩
    rw [walk, ih (by simpa using hn)]

end Outline.Forest

import Mathlib.Tactic.Common
import Outline.Value.Basic

/-!
# Equality of values

Equality is the same from both sides, whatever the scales of decimal numbers are, and a nested
tree is equal to nothing but itself.
-/

namespace Outline

theorem Decimal.equal_comm (a b : Decimal) : a.equal b = b.equal a := by
  have hpow : ∀ n : Nat, 10 ^ n ≠ 0 := fun n => Nat.ne_of_gt (Nat.pow_pos (by decide))
  have hzero : a.mantissa * 10 ^ b.scale = b.mantissa * 10 ^ a.scale →
      (a.mantissa = 0 ↔ b.mantissa = 0) := by
    intro h
    constructor
    · intro ha
      rw [ha, Nat.zero_mul] at h
      exact (Nat.mul_eq_zero.mp h.symm).resolve_right (hpow _)
    · intro hb
      rw [hb, Nat.zero_mul] at h
      exact (Nat.mul_eq_zero.mp h).resolve_right (hpow _)
  rw [Bool.eq_iff_iff]
  simp only [equal, Bool.and_eq_true, Bool.or_eq_true, beq_iff_eq]
  constructor
  · rintro ⟨hm, hs⟩
    exact ⟨hm.symm, hs.imp Eq.symm (hzero hm).mp⟩
  · rintro ⟨hm, hs⟩
    exact ⟨hm.symm, hs.imp Eq.symm (hzero hm.symm).mpr⟩

theorem Binary.equal_comm (a b : Binary) : a.equal b = b.equal a := by
  cases a <;> cases b <;> simp only [equal, Bool.and_comm, Bool.beq_comm]

namespace Value

theorem equal_comm (v v' : Value) : v.equal v' = v'.equal v := by
  cases v <;> cases v' <;>
    first
    | exact Decimal.equal_comm _ _
    | exact Binary.equal_comm _ _
    | exact Bool.beq_comm
    | rfl

theorem equal_node {v : Value} {c : NodeId} (h : v.equal (.node c) = true) : v = .node c := by
  unfold Value.equal at h
  split at h <;> simp_all

end Value
end Outline

import Mathlib.Tactic.Common
import Outline.Time.Duration

/-!
# Durations and ticks

The number of ticks of a duration is its length cut toward zero, and only a number outside the
64-bit range is replaced by the end of that range (`toTicks_eq_clamp`). So a duration made of a
number of ticks is written with that number again, and a duration of a whole number of ticks is
made of it.
-/

namespace Outline.Duration

theorem minTicks_eq : minTicks = -9223372036854775808 := by decide

theorem maxTicks_eq : maxTicks = 9223372036854775807 := by decide

theorem limit_eq : limit = 9223372036854775807000000 := by decide

/-! ## From ticks -/

theorem ofTicks?_eq (t : Int) : ofTicks? t = ofNanoseconds? (t * 100) := by
  have hsplit := Int.tdiv_mul_add_tmod t ticksPerSecond
  unfold ofTicks?
  congr 1
  simp only [ticksPerSecond] at hsplit ⊢
  omega

theorem ofTicks?_nanoseconds {t : Int} {d : Duration} (h : ofTicks? t = some d) :
    d.nanoseconds = t * 100 := by
  simp only [ofTicks?_eq, ofNanoseconds?, Option.dite_none_right_eq_some, Option.some.injEq] at h
  obtain ⟨_, rfl⟩ := h
  rfl

theorem exists_ofTicks? {t : Int} (ht : minTicks ≤ t ∧ t ≤ maxTicks) :
    ∃ d, ofTicks? t = some d := by
  have hbound : (t * 100).natAbs ≤ limit := by
    rw [minTicks_eq, maxTicks_eq] at ht
    rw [limit_eq]
    omega
  exact ⟨⟨t * 100, hbound⟩, by rw [ofTicks?_eq, ofNanoseconds?, dif_pos hbound]⟩

/-! ## To ticks -/

/-- The length in ticks, cut toward zero, whatever its size. -/
def allTicks (d : Duration) : Int := d.nanoseconds.tdiv 100

theorem tdiv_tmod_cases (t b : Int) :
    0 ≤ t ∧ t.tdiv b = t / b ∧ t.tmod b = t % b ∨
      t < 0 ∧ t.tdiv b = -(-t / b) ∧ t.tmod b = -(-t % b) := by
  by_cases ht : 0 ≤ t
  · exact .inl ⟨ht, Int.tdiv_eq_ediv_of_nonneg ht, Int.tmod_eq_emod_of_nonneg ht⟩
  · have hneg : 0 ≤ -t := by omega
    refine .inr ⟨by omega, ?_, ?_⟩
    · rw [← Int.tdiv_eq_ediv_of_nonneg hneg, Int.neg_tdiv, Int.neg_neg]
    · rw [← Int.tmod_eq_emod_of_nonneg hneg, Int.neg_tmod, Int.neg_neg]

/-- Both parts of a duration are cut toward zero, so they make up all ticks, and the ticks of the
whole seconds lie between zero and all of them. -/
theorem ticks_of_parts (d : Duration) :
    d.wholeSeconds * ticksPerSecond + d.restNanos.tdiv 100 = d.allTicks ∧
      (0 ≤ d.nanoseconds ∧ 0 ≤ d.wholeSeconds * ticksPerSecond ∧
          d.wholeSeconds * ticksPerSecond ≤ d.allTicks ∨
        d.nanoseconds < 0 ∧ d.wholeSeconds * ticksPerSecond ≤ 0 ∧
          d.allTicks ≤ d.wholeSeconds * ticksPerSecond) := by
  unfold wholeSeconds restNanos allTicks ticksPerSecond
  have hseconds := tdiv_tmod_cases d.nanoseconds 1000000000
  have hticks := tdiv_tmod_cases (d.nanoseconds.tmod 1000000000) 100
  have hall := tdiv_tmod_cases d.nanoseconds 100
  omega

theorem checked_eq_some_iff {n m : Int} :
    checked n = some m ↔ (minTicks ≤ n ∧ n ≤ maxTicks) ∧ n = m := by
  simp [checked, fitsTicks]

/-- The product does not leave the range where the sum stays in it, so what overflows is the
result. -/
theorem toTicks_eq_clamp (d : Duration) :
    d.toTicks = max minTicks (min maxTicks d.allTicks) := by
  obtain ⟨hsum, hbetween⟩ := ticks_of_parts d
  have hmin : minTicks ≤ 0 := by decide
  have hmax : 0 ≤ maxTicks := by decide
  unfold toTicks
  generalize d.wholeSeconds * ticksPerSecond = p at hsum hbetween ⊢
  cases hexact : (checked p).bind fun t => checked (t + d.restNanos.tdiv 100) with
  | some t =>
    obtain ⟨_, hproduct, hresult⟩ := Option.bind_eq_some_iff.mp hexact
    obtain ⟨-, rfl⟩ := checked_eq_some_iff.mp hproduct
    obtain ⟨hfits, rfl⟩ := checked_eq_some_iff.mp hresult
    rw [Option.getD_some]
    omega
  | none =>
    have hover : ¬ (minTicks ≤ d.allTicks ∧ d.allTicks ≤ maxTicks) := by
      intro hall
      have hproduct : checked p = some p := checked_eq_some_iff.mpr ⟨by omega, rfl⟩
      rw [hproduct, Option.bind_some, hsum, checked_eq_some_iff.mpr ⟨hall, rfl⟩] at hexact
      cases hexact
    rw [Option.getD_none]
    split <;> omega

theorem toTicks_ofTicks? {t : Int} {d : Duration} (ht : minTicks ≤ t ∧ t ≤ maxTicks)
    (h : ofTicks? t = some d) : d.toTicks = t := by
  have hall : d.allTicks = t := by
    rw [allTicks, ofTicks?_nanoseconds h]
    exact Int.mul_tdiv_cancel t (by decide)
  rw [toTicks_eq_clamp, hall]
  omega

/-- The length is a whole number of ticks, and that number fits into 64 bits. -/
def WholeTicks (d : Duration) : Prop := ∃ t, minTicks ≤ t ∧ t ≤ maxTicks ∧ d.nanoseconds = t * 100

theorem WholeTicks.ofTicks?_toTicks {d : Duration} (h : d.WholeTicks) :
    minTicks ≤ d.toTicks ∧ d.toTicks ≤ maxTicks ∧ ofTicks? d.toTicks = some d := by
  obtain ⟨t, hmin, hmax, hns⟩ := h
  have hofTicks : ofTicks? t = some d := by
    rw [ofTicks?_eq, ← hns]
    exact dif_pos d.bounded
  rw [toTicks_ofTicks? ⟨hmin, hmax⟩ hofTicks]
  exact ⟨hmin, hmax, hofTicks⟩

/-! ## No step on the way overflows -/

/-- A duration kept as seconds cut downward with nanoseconds on top. Below zero, a second is moved
from one part to the other to cut both toward zero. -/
theorem parts_of_floor (d : Duration) :
    d.wholeSeconds = (if d.nanoseconds / 1000000000 < 0 ∧ 0 < d.nanoseconds % 1000000000 then
        d.nanoseconds / 1000000000 + 1 else d.nanoseconds / 1000000000) ∧
      d.restNanos = if d.nanoseconds / 1000000000 < 0 ∧ 0 < d.nanoseconds % 1000000000 then
        d.nanoseconds % 1000000000 - 1000000000 else d.nanoseconds % 1000000000 := by
  unfold wholeSeconds restNanos
  have hcut := tdiv_tmod_cases d.nanoseconds 1000000000
  omega

theorem fitsTicks_parts (d : Duration) :
    fitsTicks d.wholeSeconds = true ∧ d.restNanos.natAbs < 1000000000 := by
  have hbound := d.bounded
  rw [limit_eq] at hbound
  obtain ⟨hseconds, hrest⟩ := parts_of_floor d
  simp only [fitsTicks, decide_eq_true_eq, minTicks_eq, maxTicks_eq]
  omega

theorem fitsTicks_split {t : Int} (ht : minTicks ≤ t ∧ t ≤ maxTicks) :
    fitsTicks (t.tdiv ticksPerSecond) = true ∧
      fitsTicks (t.tmod ticksPerSecond * 100) = true := by
  have hcut := tdiv_tmod_cases t ticksPerSecond
  simp only [ticksPerSecond] at hcut ⊢
  simp only [fitsTicks, decide_eq_true_eq, minTicks_eq, maxTicks_eq] at ht ⊢
  omega

/-- Every number of 64 bits stands for a duration and is its number of ticks. Every duration has
its length cut toward zero as its number of ticks, as far as 64 bits go, and a longer duration has
no fewer of them. What is computed without a check on the way stays in range. -/
theorem ticks_exact :
    (∀ t, minTicks ≤ t → t ≤ maxTicks → ∃ d, ofTicks? t = some d ∧ d.toTicks = t) ∧
      (∀ d : Duration, d.toTicks = max minTicks (min maxTicks (d.nanoseconds.tdiv 100))) ∧
      (∀ d e : Duration, d.nanoseconds ≤ e.nanoseconds → d.toTicks ≤ e.toTicks) ∧
      (∀ t, minTicks ≤ t → t ≤ maxTicks → fitsTicks (t.tdiv ticksPerSecond) = true ∧
        fitsTicks (t.tmod ticksPerSecond * 100) = true) ∧
      ∀ d : Duration, fitsTicks d.wholeSeconds = true ∧ d.restNanos.natAbs < 1000000000 := by
  refine ⟨fun t hmin hmax => ?_, toTicks_eq_clamp, fun d e hle => ?_,
    fun t hmin hmax => fitsTicks_split ⟨hmin, hmax⟩, fitsTicks_parts⟩
  · obtain ⟨d, hd⟩ := exists_ofTicks? ⟨hmin, hmax⟩
    exact ⟨d, hd, toTicks_ofTicks? ⟨hmin, hmax⟩ hd⟩
  · have hall : d.allTicks ≤ e.allTicks := Int.tdiv_le_tdiv (by decide) hle
    rw [toTicks_eq_clamp, toTicks_eq_clamp]
    omega

/-- Both ends of the range, and one nanosecond less than a tick beyond the lower one. -/
theorem ticks_exact_limits :
    (∃ d, ofTicks? minTicks = some d ∧ d.toTicks = minTicks) ∧
      (∃ d, ofTicks? maxTicks = some d ∧ d.toTicks = maxTicks) ∧
      toTicks ⟨-922337203685477580899, by decide⟩ = minTicks ∧
      toTicks ⟨-922337203685477580900, by decide⟩ = minTicks ∧
      toTicks ⟨-199, by decide⟩ = -1 := by
  obtain ⟨hexact, hclamp, -⟩ := ticks_exact
  refine ⟨hexact _ (by decide) (by decide), hexact _ (by decide) (by decide), ?_, ?_, ?_⟩
  · rw [hclamp]
    decide
  · rw [hclamp]
    decide
  · rw [hclamp]
    decide

end Outline.Duration

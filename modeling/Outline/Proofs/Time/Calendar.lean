import Mathlib.Data.Int.LeastGreatest
import Mathlib.Tactic.Common
import Outline.Time.Calendar

/-!
# Day numbers and dates

Dates and day numbers go one to one (`ofDays_toDays`, `toDays_ofDays`), and the number after
that of a date belongs to the date that follows it in the calendar (`ofDays_succ`). Both are
shown in years counted from March: a day number is a year and a place in it, and the place is a
month and a day.
-/

namespace Outline.Calendar

/-- A month of the year and a day of that month. -/
def Valid (c : Calendar) : Prop :=
  1 ≤ c.month ∧ c.month ≤ 12 ∧ 1 ≤ c.day ∧ c.day ≤ daysInMonth c.year c.month

instance (c : Calendar) : Decidable c.Valid := inferInstanceAs (Decidable (_ ∧ _))

theorem real_iff {c : Calendar} :
    c.Real ↔ (minYear ≤ c.year ∧ c.year ≤ maxYear) ∧ c.Valid := by
  simp only [Real, Valid, and_assoc]

/-! ## Years counted from March -/

/-- The length of such a year, which ends with the February of the year after it. -/
def yearLength (y : Int) : Int := if isLeap (y + 1) then 366 else 365

theorem isLeap_iff {y : Int} : isLeap y = true ↔ y % 4 = 0 ∧ (y % 100 ≠ 0 ∨ y % 400 = 0) := by
  simp [isLeap]

theorem yearLength_bounds (y : Int) : 365 ≤ yearLength y ∧ yearLength y ≤ 366 := by
  unfold yearLength
  split <;> decide

theorem yearLength_period (y : Int) : yearLength (y % 400) = yearLength y := by
  have h4 : (y % 400 + 1) % 4 = (y + 1) % 4 := by omega
  have h100 : (y % 400 + 1) % 100 = (y + 1) % 100 := by omega
  have h400 : (y % 400 + 1) % 400 = (y + 1) % 400 := by omega
  simp only [yearLength, isLeap_iff, h4, h100, h400]

theorem daysBeforeYear_succ (y : Int) :
    daysBeforeYear (y + 1) = daysBeforeYear y + yearLength y := by
  unfold yearLength daysBeforeYear
  split
  · rename_i hleap
    rw [isLeap_iff] at hleap
    omega
  · rename_i hleap
    rw [isLeap_iff] at hleap
    omega

theorem daysBeforeYear_period (y : Int) :
    daysBeforeYear y = 146097 * (y / 400) + daysBeforeYear (y % 400) := by
  unfold daysBeforeYear
  omega

/-- Centuries, spans of four years and single years within a period of 400 years. -/
theorem daysBeforeYear_split {c q r : Int} (hc : 0 ≤ c ∧ c ≤ 3) (hq : 0 ≤ q ∧ q ≤ 24)
    (hr : 0 ≤ r ∧ r ≤ 3) :
    daysBeforeYear (100 * c + 4 * q + r) = 36524 * c + 1461 * q + 365 * r := by
  unfold daysBeforeYear
  omega

/-- From a day of a period of 400 years its year is found: the leap days before it are taken off,
and then all years have the same length. -/
theorem year_of_day {y doy : Int} (hy : 0 ≤ y ∧ y < 400) (h0 : 0 ≤ doy) (h1 : doy < yearLength y)
    {doe : Int} (hdoe : doe = daysBeforeYear y + doy) :
    0 ≤ doe ∧ doe < 146097 ∧ (doe - doe / 1460 + doe / 36524 - doe / 146096) / 365 = y := by
  obtain ⟨c, q, r, hc, hq, hr, rfl⟩ : ∃ c q r : Int, (0 ≤ c ∧ c ≤ 3) ∧ (0 ≤ q ∧ q ≤ 24) ∧
      (0 ≤ r ∧ r ≤ 3) ∧ y = 100 * c + 4 * q + r :=
    ⟨y / 100, y % 100 / 4, y % 4, by omega, by omega, by omega, by omega⟩
  rw [daysBeforeYear_split hc hq hr] at hdoe
  have hle : doy ≤ 365 := by
    have hlen := (yearLength_bounds (100 * c + 4 * q + r)).2
    omega
  have hleap : doy = 365 → r = 3 ∧ (q = 24 → c = 3) := by
    rintro rfl
    unfold yearLength at h1
    split at h1
    · rename_i h
      rw [isLeap_iff] at h
      omega
    · omega
  -- Late in the last of four years, one leap day more is counted than are over.
  obtain ⟨e, he⟩ : ∃ e, (24 * c + q + 365 * r + doy) / 1460 = e := ⟨_, rfl⟩
  have hrest : 0 ≤ doy - e ∧ doy - e < 365 := by
    by_cases hlast : doy = 365
    · obtain ⟨rfl, -⟩ := hleap hlast
      omega
    · omega
  have hfour : doe / 1460 = 25 * c + q + e := by omega
  -- Only the leap day that ends the period lies beyond its four times 36524 days.
  have hend : doe = 146096 ∧ c = 3 ∨ 36524 * c ≤ doe ∧ doe < 36524 * (c + 1) := by omega
  have hcentury : doe / 36524 - doe / 146096 = c := by
    rcases hend with ⟨rfl, rfl⟩ | ⟨hlo, hhi⟩
    · rfl
    · have hwhole : doe / 36524 = c := by omega
      omega
  have hdays : doe - doe / 1460 + doe / 36524 - doe / 146096 =
      365 * (100 * c + 4 * q + r) + (doy - e) := by
    rw [Int.add_sub_assoc, hcentury, hfour]
    clear hcentury hfour hend he hleap
    omega
  refine ⟨by omega, by omega, ?_⟩
  rw [hdays, Int.mul_add_ediv_left _ _ (by decide), Int.ediv_eq_zero_of_lt hrest.1 hrest.2,
    Int.add_zero]

theorem exists_yearDay (z : Int) :
    ∃ y doy, z = daysBeforeYear y + doy ∧ 0 ≤ doy ∧ doy < yearLength y := by
  obtain ⟨y, hy, hmax⟩ := Int.exists_greatest_of_bdd (P := fun y => daysBeforeYear y ≤ z)
    ⟨z.natAbs, fun y hy => by unfold daysBeforeYear at hy; omega⟩
    ⟨-z.natAbs, by unfold daysBeforeYear; omega⟩
  have hnext : z < daysBeforeYear (y + 1) := by
    by_contra hle
    have hlast := hmax (y + 1) (Int.not_lt.mp hle)
    omega
  rw [daysBeforeYear_succ] at hnext
  exact ⟨y, z - daysBeforeYear y, by omega, by omega, by omega⟩

/-! ## Months counted from March -/

def marchMonth (month : Nat) : Int := if 2 < month then month - 3 else month + 9

def marchYear (c : Calendar) : Int := if 2 < c.month then c.year else c.year - 1

/-- The place of a date in its year. -/
def yearDay (c : Calendar) : Int := daysBeforeMonth (marchMonth c.month) + c.day - 1

theorem toDays_eq (c : Calendar) :
    c.toDays + epoch = daysBeforeYear c.marchYear + c.yearDay := by
  simp only [toDays, marchYear, yearDay, marchMonth, decide_eq_true_eq]
  omega

theorem daysInMonth_eq {month : Nat} (y : Int) (h1 : 1 ≤ month) (h12 : month ≤ 12)
    (h2 : month ≠ 2) : (daysInMonth y month : Int) =
      daysBeforeMonth (marchMonth month + 1) - daysBeforeMonth (marchMonth month) := by
  have hcases : month = 1 ∨ month = 3 ∨ month = 4 ∨ month = 5 ∨ month = 6 ∨ month = 7 ∨
      month = 8 ∨ month = 9 ∨ month = 10 ∨ month = 11 ∨ month = 12 := by omega
  rcases hcases with rfl | rfl | rfl | rfl | rfl | rfl | rfl | rfl | rfl | rfl | rfl <;> rfl

theorem daysInMonth_two (y : Int) :
    (daysInMonth y 2 : Int) = yearLength (y - 1) - daysBeforeMonth 11 := by
  simp only [daysInMonth, yearLength, Int.sub_add_cancel, daysBeforeMonth]
  split <;> rfl

theorem daysInMonth_bounds (y : Int) (month : Nat) :
    1 ≤ daysInMonth y month ∧ daysInMonth y month ≤ 31 := by
  unfold daysInMonth
  split
  · split <;> decide
  all_goals decide

/-- The next month begins after the day, February taken as one of 30 days. -/
theorem Valid.day_le {c : Calendar} (h : c.Valid) : (c.day : Int) ≤
    daysBeforeMonth (marchMonth c.month + 1) - daysBeforeMonth (marchMonth c.month) := by
  obtain ⟨h1, h12, -, hday⟩ := h
  by_cases h2 : c.month = 2
  · have hfeb := daysInMonth_two c.year
    have hlen := (yearLength_bounds (c.year - 1)).2
    rw [h2] at hday ⊢
    simp only [marchMonth, daysBeforeMonth] at hfeb ⊢
    omega
  · rw [← daysInMonth_eq c.year h1 h12 h2]
    exact Int.ofNat_le.mpr hday

theorem Valid.yearDay_bounds {c : Calendar} (h : c.Valid) :
    0 ≤ c.yearDay ∧ c.yearDay < yearLength c.marchYear := by
  have hday := h.day_le
  obtain ⟨h1, h12, hd1, hd2⟩ := h
  by_cases h2 : c.month = 2
  · have hlast := daysInMonth_two c.year
    have hyear : c.marchYear = c.year - 1 := by simp [marchYear, h2]
    rw [← h2] at hlast
    rw [hyear, yearDay, h2]
    simp only [marchMonth, daysBeforeMonth] at hlast ⊢
    omega
  · have hlen := (yearLength_bounds c.marchYear).1
    simp only [yearDay, marchMonth, daysBeforeMonth] at hday ⊢
    omega

theorem exists_valid {y doy : Int} (h0 : 0 ≤ doy) (h1 : doy < yearLength y) :
    ∃ c : Calendar, c.Valid ∧ c.marchYear = y ∧ c.yearDay = doy := by
  have hlen := (yearLength_bounds y).2
  obtain ⟨m, hm⟩ : ∃ m, m = (5 * doy + 2) / 153 := ⟨_, rfl⟩
  obtain ⟨day, hday⟩ : ∃ day : Nat, (day : Int) = doy - daysBeforeMonth m + 1 :=
    ⟨(doy - daysBeforeMonth m + 1).toNat, by unfold daysBeforeMonth; omega⟩
  obtain ⟨month, hmonth⟩ : ∃ month : Nat, (month : Int) = if m < 10 then m + 3 else m - 9 :=
    ⟨(if m < 10 then m + 3 else m - 9).toNat, by omega⟩
  have hback : marchMonth month = m := by
    unfold marchMonth
    omega
  refine ⟨⟨if 2 < month then y else y + 1, month, day⟩, ⟨?_, ?_, ?_, ?_⟩, ?_, ?_⟩
  · show 1 ≤ month
    omega
  · show month ≤ 12
    omega
  · show 1 ≤ day
    unfold daysBeforeMonth at hday
    omega
  · show day ≤ daysInMonth (if 2 < month then y else y + 1) month
    rw [← Int.ofNat_le]
    by_cases h2 : month = 2
    · subst h2
      rw [if_neg (by decide), daysInMonth_two, Int.add_sub_cancel]
      have hm11 : m = 11 := by rw [← hback]; rfl
      rw [hm11] at hday
      omega
    · rw [daysInMonth_eq _ (by omega) (by omega) h2, hback]
      unfold daysBeforeMonth at hday ⊢
      omega
  · show (if 2 < month then _ else _ - 1) = y
    by_cases h2 : 2 < month
    · rw [if_pos h2, if_pos h2]
    · rw [if_neg h2, if_neg h2, Int.add_sub_cancel]
  · show daysBeforeMonth (marchMonth month) + day - 1 = doy
    rw [hback]
    omega

/-! ## Back from day numbers -/

def ofYearDay (y doy : Int) : Calendar :=
  let m := (5 * doy + 2) / 153
  let day := doy - (153 * m + 2) / 5 + 1
  let month := if m < 10 then m + 3 else m - 9
  ⟨if month ≤ 2 then y + 1 else y, month.toNat, day.toNat⟩

theorem ofDays_eq_ofYearDay {n y doy : Int} (hn : n + epoch = daysBeforeYear y + doy)
    (h0 : 0 ≤ doy) (h1 : doy < yearLength y) : ofDays n = ofYearDay y doy := by
  have hperiod := daysBeforeYear_period y
  rw [← yearLength_period] at h1
  obtain ⟨hlo, hhi, hyear⟩ := year_of_day (y := y % 400) (by omega) h0 h1 rfl
  have hera : (n + epoch) / 146097 = y / 400 := by omega
  have hdoe : (n + epoch) % 146097 = daysBeforeYear (y % 400) + doy := by omega
  have hdoy : daysBeforeYear (y % 400) + doy -
      (365 * (y % 400) + y % 400 / 4 - y % 400 / 100) = doy := by
    unfold daysBeforeYear
    omega
  have hy : y % 400 + 400 * (y / 400) = y := by omega
  simp only [ofDays, ofYearDay, hera, hdoe, hyear, hdoy, hy]

theorem Valid.ofYearDay_yearDay {c : Calendar} (h : c.Valid) :
    ofYearDay c.marchYear c.yearDay = c := by
  have hday := h.day_le
  obtain ⟨h1, h12, hd1, -⟩ := h
  obtain ⟨m, hm⟩ : ∃ m, marchMonth c.month = m := ⟨_, rfl⟩
  have hrange : 0 ≤ m ∧ m ≤ 11 := by
    unfold marchMonth at hm
    omega
  rw [hm] at hday
  have hmonth : (5 * c.yearDay + 2) / 153 = m := by
    simp only [yearDay, hm, daysBeforeMonth] at hday ⊢
    omega
  have hplace : c.yearDay - (153 * m + 2) / 5 + 1 = c.day := by
    simp only [yearDay, hm, daysBeforeMonth]
    omega
  have hback : (if m < 10 then m + 3 else m - 9) = c.month := by
    unfold marchMonth at hm
    omega
  simp only [ofYearDay, hmonth, hplace, hback, Int.toNat_natCast, marchYear]
  by_cases h2 : 2 < c.month
  · rw [if_pos h2, if_neg (by omega)]
  · rw [if_neg h2, if_pos (by omega), Int.sub_add_cancel]

theorem Valid.ofDays_toDays {c : Calendar} (h : c.Valid) : ofDays c.toDays = c := by
  obtain ⟨h0, h1⟩ := h.yearDay_bounds
  rw [ofDays_eq_ofYearDay (toDays_eq c) h0 h1, h.ofYearDay_yearDay]

theorem exists_toDays (n : Int) : ∃ c : Calendar, c.Valid ∧ c.toDays = n := by
  obtain ⟨y, doy, hz, h0, h1⟩ := exists_yearDay (n + epoch)
  obtain ⟨c, hc, rfl, rfl⟩ := exists_valid h0 h1
  have hdays := toDays_eq c
  exact ⟨c, hc, by omega⟩

theorem valid_ofDays (n : Int) : (ofDays n).Valid := by
  obtain ⟨c, hc, rfl⟩ := exists_toDays n
  rwa [hc.ofDays_toDays]

theorem toDays_ofDays (n : Int) : (ofDays n).toDays = n := by
  obtain ⟨c, hc, rfl⟩ := exists_toDays n
  rw [hc.ofDays_toDays]

/-! ## The next day -/

/-- The first day of the next month. -/
def nextMonth (c : Calendar) : Calendar :=
  if c.month < 12 then ⟨c.year, c.month + 1, 1⟩ else ⟨c.year + 1, 1, 1⟩

def next (c : Calendar) : Calendar :=
  if c.day < daysInMonth c.year c.month then { c with day := c.day + 1 } else c.nextMonth

theorem Valid.next {c : Calendar} (h : c.Valid) : c.next.Valid := by
  obtain ⟨h1, h12, -, -⟩ := h
  unfold Calendar.next nextMonth
  split
  · exact ⟨h1, h12, Nat.le_add_left 1 c.day, ‹c.day < _›⟩
  · split
    · exact ⟨Nat.le_add_left 1 c.month, ‹c.month < 12›, Nat.le_refl 1, (daysInMonth_bounds _ _).1⟩
    · exact ⟨Nat.le_refl 1, (by decide : 1 ≤ 12), Nat.le_refl 1, (daysInMonth_bounds _ _).1⟩

/-- February is followed by a new year, every other month by a month of the same year. -/
theorem toDays_nextMonth {c : Calendar} (h1 : 1 ≤ c.month) (h12 : c.month ≤ 12) :
    c.nextMonth.toDays + c.day = c.toDays + daysInMonth c.year c.month + 1 := by
  have hc := toDays_eq c
  have hn := toDays_eq c.nextMonth
  by_cases h2 : c.month = 2
  · have hyear := daysBeforeYear_succ (c.year - 1)
    have hnext : c.nextMonth = ⟨c.year, 3, 1⟩ := by simp [nextMonth, h2]
    have hbegun : c.marchYear = c.year - 1 := by simp [marchYear, h2]
    have hnew : (Calendar.mk c.year 3 1).marchYear = c.year := rfl
    rw [Int.sub_add_cancel] at hyear
    rw [hnext, hnew] at hn
    rw [hnext, h2, daysInMonth_two]
    simp only [hbegun, yearDay, h2, marchMonth, daysBeforeMonth] at hc hn ⊢
    omega
  · have hyear : c.nextMonth.marchYear = c.marchYear := by
      simp only [nextMonth, marchYear]
      split <;> simp only <;> omega
    have hmonth : marchMonth c.nextMonth.month = marchMonth c.month + 1 := by
      simp only [nextMonth, marchMonth]
      split <;> simp only <;> omega
    have hday : c.nextMonth.day = 1 := by
      unfold nextMonth
      split <;> rfl
    rw [daysInMonth_eq c.year h1 h12 h2]
    simp only [yearDay, hyear, hmonth, hday] at hc hn
    omega

theorem Valid.toDays_next {c : Calendar} (h : c.Valid) : c.next.toDays = c.toDays + 1 := by
  obtain ⟨h1, h12, -, hle⟩ := h
  unfold Calendar.next
  by_cases hday : c.day < daysInMonth c.year c.month
  · rw [if_pos hday]
    have hc := toDays_eq c
    have hn := toDays_eq { c with day := c.day + 1 }
    simp only [marchYear, yearDay, Nat.cast_add, Nat.cast_one] at hc hn
    omega
  · rw [if_neg hday]
    have hmonth := toDays_nextMonth h1 h12
    omega

theorem ofDays_succ (n : Int) : ofDays (n + 1) = (ofDays n).next := by
  have hvalid := valid_ofDays n
  have hnext := hvalid.toDays_next
  rw [toDays_ofDays] at hnext
  rw [← hnext, hvalid.next.ofDays_toDays]

example : (Calendar.mk 1900 2 28).next = ⟨1900, 3, 1⟩ ∧ (Calendar.mk 2000 2 28).next.next =
    ⟨2000, 3, 1⟩ ∧ (Calendar.mk (-1) 12 31).next = ⟨0, 1, 1⟩ := by decide

end Outline.Calendar

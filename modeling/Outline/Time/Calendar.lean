/-!
# The Gregorian calendar

Days are counted from 1970-01-01. The calendar is proleptic and has a year zero. Years are
counted from March, so that the leap day is the last day of a year.
-/

namespace Outline

structure Calendar where
  year : Int
  month : Nat
  day : Nat
  deriving DecidableEq, Repr

namespace Calendar

def isLeap (year : Int) : Bool := year % 4 == 0 && (year % 100 != 0 || year % 400 == 0)

def daysInMonth (year : Int) (month : Nat) : Nat :=
  match month with
  | 2 => if isLeap year then 29 else 28
  | 4 | 6 | 9 | 11 => 30
  | _ => 31

/-- The years for which dates exist. -/
def minYear : Int := -262143
def maxYear : Int := 262142

def Real (c : Calendar) : Prop :=
  minYear ≤ c.year ∧ c.year ≤ maxYear ∧ 1 ≤ c.month ∧ c.month ≤ 12 ∧
    1 ≤ c.day ∧ c.day ≤ daysInMonth c.year c.month

instance (c : Calendar) : Decidable c.Real := inferInstanceAs (Decidable (_ ∧ _))

/-- Days in the years before `y`, counted from March of year zero. -/
def daysBeforeYear (y : Int) : Int := 365 * y + y / 4 - y / 100 + y / 400

/-- Days in the months before the `m`-th one, March being month zero. -/
def daysBeforeMonth (m : Int) : Int := (153 * m + 2) / 5

/-- Days from 0000-03-01 to 1970-01-01. -/
def epoch : Int := 719468

def toDays (c : Calendar) : Int :=
  let late := decide (2 < c.month)
  let y := if late then c.year else c.year - 1
  let m : Int := if late then c.month - 3 else c.month + 9
  daysBeforeYear y + daysBeforeMonth m + c.day - 1 - epoch

/-- The day with the given number: first the period of 400 years, then the year in it, then
the month in that year. -/
def ofDays (n : Int) : Calendar :=
  let z := n + epoch
  let era := z / 146097
  let doe := z % 146097
  let yoe := (doe - doe / 1460 + doe / 36524 - doe / 146096) / 365
  let doy := doe - (365 * yoe + yoe / 4 - yoe / 100)
  let m := (5 * doy + 2) / 153
  let day := doy - (153 * m + 2) / 5 + 1
  let month := if m < 10 then m + 3 else m - 9
  let year := yoe + 400 * era
  ⟨if month ≤ 2 then year + 1 else year, month.toNat, day.toNat⟩

end Calendar
end Outline

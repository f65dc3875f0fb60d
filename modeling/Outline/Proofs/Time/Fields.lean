import Outline.Proofs.Time.Calendar
import Outline.Time.Instant

/-!
# Instants and their fields

An instant and its date and time of day say the same (`toFields_ofFields`, `ofFields_toFields`),
leap seconds included. Taking whole minutes off an instant moves the time of day, and where it
leaves the day, the date goes to the day before or after (`earlier_before`).
-/

namespace Outline.Instant

def Fields.Valid (f : Fields) : Prop :=
  f.date.Valid ∧ f.hour ≤ 23 ∧ f.minute ≤ 59 ∧ f.second ≤ 60 ∧ f.nanos < nanosPerSecond

instance (f : Fields) : Decidable f.Valid := inferInstanceAs (Decidable (_ ∧ _))

theorem Fields.Real.valid {f : Fields} (h : f.Real) : f.Valid :=
  ⟨(Calendar.real_iff.mp h.1).2, h.2⟩

/-- Only the last second of a minute is followed by a leap second. -/
def Proper (i : Instant) : Prop :=
  i.nanos < 2 * nanosPerSecond ∧ (nanosPerSecond ≤ i.nanos → i.clock % 60 = 59)

theorem seconds_ofFields (f : Fields) : (ofFields f).seconds =
    f.date.toDays * 86400 + (f.hour * 3600 + f.minute * 60 + min f.second 59 : Nat) := rfl

theorem nanos_ofFields (f : Fields) :
    f.second = 60 ∧ (ofFields f).nanos = f.nanos + 1000000000 ∨
      f.second ≠ 60 ∧ (ofFields f).nanos = f.nanos := by
  by_cases h : f.second = 60
  · exact .inl ⟨h, by rw [ofFields, if_pos h]; rfl⟩
  · exact .inr ⟨h, by rw [ofFields, if_neg h]; rfl⟩

theorem proper_ofFields {f : Fields} (h : f.Valid) : (ofFields f).Proper := by
  obtain ⟨-, -, -, hsecond, hnanos⟩ := h
  have hs := seconds_ofFields f
  have hn := nanos_ofFields f
  simp only [Proper, clock, nanosPerSecond, secondsPerDay] at hnanos ⊢
  omega

/-! ## One to one -/

theorem toFields_ofFields {f : Fields} (h : f.Valid) : (ofFields f).toFields = f := by
  obtain ⟨hdate, hhour, hminute, hsecond, hnanos⟩ := h
  have hs := seconds_ofFields f
  have hn := nanos_ofFields f
  simp only [nanosPerSecond] at hnanos
  have hday : (ofFields f).seconds / secondsPerDay = f.date.toDays := by
    simp only [secondsPerDay]
    omega
  have hclock : (ofFields f).clock = f.hour * 3600 + f.minute * 60 + min f.second 59 := by
    simp only [clock, secondsPerDay]
    omega
  have hh : (ofFields f).clock / 3600 = f.hour := by omega
  have hm : (ofFields f).clock / 60 % 60 = f.minute := by omega
  have hsec : (ofFields f).clock % 60 + (ofFields f).nanos / 1000000000 = f.second := by omega
  have hrest : (ofFields f).nanos % 1000000000 = f.nanos := by omega
  simp only [toFields, date, hday, hdate.ofDays_toDays, nanosPerSecond, hh, hm, hsec, hrest]

theorem valid_toFields {i : Instant} (h : i.Proper) : i.toFields.Valid := by
  obtain ⟨hnanos, hleap⟩ := h
  refine ⟨Calendar.valid_ofDays _, ?_⟩
  simp only [toFields, clock, secondsPerDay, nanosPerSecond] at hnanos hleap ⊢
  omega

theorem ofFields_toFields {i : Instant} (h : i.Proper) : ofFields i.toFields = i := by
  have hs := seconds_ofFields i.toFields
  have hn := nanos_ofFields i.toFields
  obtain ⟨hnanos, hleap⟩ := h
  have hseconds : (ofFields i.toFields).seconds = i.seconds := by
    simp only [toFields, date, Calendar.toDays_ofDays] at hs ⊢
    simp only [clock, secondsPerDay, nanosPerSecond] at hnanos hleap hs ⊢
    omega
  have hnanos : (ofFields i.toFields).nanos = i.nanos := by
    simp only [toFields, nanosPerSecond] at hnanos hleap hn ⊢
    omega
  cases h : ofFields i.toFields
  rw [h] at hseconds hnanos
  exact congrArg₂ mk hseconds hnanos

/-! ## Whole milliseconds -/

def wholeMillis (i : Instant) : Instant := { i with nanos := i.nanos / 1000000 * 1000000 }

def Fields.wholeMillis (f : Fields) : Fields := { f with nanos := f.nanos / 1000000 * 1000000 }

theorem Proper.wholeMillis {i : Instant} (h : i.Proper) : i.wholeMillis.Proper := by
  obtain ⟨hnanos, hleap⟩ := h
  simp only [Proper, Instant.wholeMillis, clock, secondsPerDay, nanosPerSecond] at hnanos hleap ⊢
  omega

theorem toFields_wholeMillis (i : Instant) : i.wholeMillis.toFields = i.toFields.wholeMillis := by
  simp only [toFields, wholeMillis, Fields.wholeMillis, date, clock, nanosPerSecond,
    Fields.mk.injEq, true_and]
  omega

theorem ofFields_wholeMillis {i : Instant} (h : i.Proper) :
    ofFields i.toFields.wholeMillis = i.wholeMillis := by
  rw [← toFields_wholeMillis, ofFields_toFields h.wholeMillis]

/-! ## Minutes taken off -/

def before (i : Instant) (seconds : Int) : Instant := { i with seconds := i.seconds - seconds }

theorem Proper.before {i : Instant} (h : i.Proper) (minutes : Int) :
    (i.before (60 * minutes)).Proper := by
  obtain ⟨hnanos, hleap⟩ := h
  refine ⟨hnanos, fun hn => ?_⟩
  have hlast := hleap hn
  simp only [clock, Instant.before, secondsPerDay] at hlast ⊢
  omega

/-- The fields `g` are `f` with minutes taken off: the time of day goes around the clock, and the
date goes on where it does. -/
structure Earlier (f : Fields) (minutes : Int) (g : Fields) : Prop where
  valid : g.Valid
  clock : (g.hour * 60 + g.minute : Int) = (f.hour * 60 + f.minute - minutes) % 1440
  second : g.second = f.second
  nanos : g.nanos = f.nanos
  dayBefore : f.hour * 60 + f.minute - minutes < 0 → g.date.next = f.date
  sameDay : 0 ≤ f.hour * 60 + f.minute - minutes →
    f.hour * 60 + f.minute - minutes < 1440 → g.date = f.date
  dayAfter : 1440 ≤ f.hour * 60 + f.minute - minutes → g.date = f.date.next

/-- Less than a day is taken off or put on, so there is at most one step in the calendar. -/
theorem earlier_before {f : Fields} (h : f.Valid) {minutes : Int} (hlo : -1440 < minutes)
    (hhi : minutes < 1440) : Earlier f minutes ((ofFields f).before (60 * minutes)).toFields := by
  have hs := seconds_ofFields f
  have hn := nanos_ofFields f
  have hproper := (proper_ofFields h).before minutes
  obtain ⟨hdate, hhour, hminute, hsecond, hnanos⟩ := h
  obtain ⟨t, ht⟩ : ∃ t, (f.hour * 60 + f.minute - minutes : Int) = t := ⟨_, rfl⟩
  have hday : ((ofFields f).before (60 * minutes)).date =
      Calendar.ofDays (f.date.toDays + t / 1440) := by
    have hquot : ((ofFields f).before (60 * minutes)).seconds / secondsPerDay =
        f.date.toDays + t / 1440 := by
      simp only [before, secondsPerDay]
      omega
    rw [date, hquot]
  have hself := hdate.ofDays_toDays
  simp only [nanosPerSecond] at hnanos
  refine ⟨valid_toFields hproper, ?_, ?_, ?_, ?_, ?_, ?_⟩
  · simp only [toFields, Instant.clock, before, secondsPerDay]
    omega
  · simp only [toFields, Instant.clock, before, secondsPerDay, nanosPerSecond]
    omega
  · simp only [toFields, before, nanosPerSecond]
    omega
  all_goals rw [ht]; intro h
  · have hq : t / 1440 = -1 := by omega
    rw [toFields, hday, hq, ← Calendar.ofDays_succ, Int.add_assoc, Int.add_left_neg,
      Int.add_zero, hself]
  · intro h'
    have hq : t / 1440 = 0 := by omega
    rw [toFields, hday, hq, Int.add_zero, hself]
  · have hq : t / 1440 = 1 := by omega
    rw [toFields, hday, hq, Calendar.ofDays_succ, hself]

end Outline.Instant

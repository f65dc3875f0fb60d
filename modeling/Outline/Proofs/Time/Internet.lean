import Outline.Proofs.Time.Spelling

/-!
# Internet notation read back

A date with an offset from universal time, in the notation of the internet: every field at its
full width, any number of places of a second, and hours and minutes ahead or behind.
-/

namespace Outline.Instant

open Number

/-- The nanoseconds are spelled as digits behind a point, cut after the ninth, or left out. -/
inductive Fraction (nanos : Nat) : List Char → Prop
  | none (h : nanos = 0) : Fraction nanos []
  | digits {ds : List Char} (hne : ds ≠ []) (hds : ∀ c ∈ ds, isDigit c = true)
      (h : nanos = valueOf ds * 10 ^ 9 / 10 ^ ds.length) : Fraction nanos ('.' :: ds)

/-- Hours and minutes ahead of universal time, or behind it. -/
structure Offset where
  behind : Bool
  hours : Nat
  minutes : Nat
  hours_le : hours ≤ 23
  minutes_le : minutes ≤ 59

namespace Offset

/-- The signed number of minutes. -/
def total (o : Offset) : Int :=
  if o.behind then -((o.hours * 60 + o.minutes : Nat) : Int) else (o.hours * 60 + o.minutes : Nat)

def chars (o : Offset) : List Char :=
  (if o.behind then '-' else '+') :: (padded 2 o.hours ++ ':' :: padded 2 o.minutes)

theorem total_bounds (o : Offset) : -1440 < o.total ∧ o.total < 1440 := by
  have hh := o.hours_le
  have hm := o.minutes_le
  unfold total
  split <;> omega

theorem length_chars (o : Offset) : o.chars.length = 6 := by
  have hh := length_padded (w := 2) (n := o.hours) (by decide) (by have := o.hours_le; omega)
  have hm := length_padded (w := 2) (n := o.minutes) (by decide) (by have := o.minutes_le; omega)
  simp [chars, hh, hm]

theorem ascii_chars (o : Offset) : Ascii o.chars := by
  have hsign : (if o.behind then '-' else '+').utf8Size = 1 := by split <;> decide
  simp only [chars, ascii_cons, ascii_append, ascii_padded, hsign, true_and]
  decide

theorem offsetField_chars (o : Offset) : offsetField o.chars = some (60 * o.total, []) := by
  have hh := digitsExactly_padded (w := 2) (n := o.hours) (s := ':' :: padded 2 o.minutes)
    (by decide) (by have := o.hours_le; omega)
  have hm := digitsExactly_padded (w := 2) (n := o.minutes) (s := []) (by decide)
    (by have := o.minutes_le; omega)
  rw [List.append_nil] at hm
  cases hsign : o.behind with
  | false =>
    have htotal : 60 * o.total = (o.hours * 3600 + o.minutes * 60 : Nat) := by
      rw [total, hsign, if_neg Bool.false_ne_true]
      omega
    simp [offsetField, chars, hsign, hh, hm, o.hours_le, o.minutes_le, htotal]
  | true =>
    have htotal : 60 * o.total = -((o.hours * 3600 + o.minutes * 60 : Nat) : Int) := by
      rw [total, hsign, if_pos rfl]
      omega
    simp [offsetField, chars, hsign, hh, hm, o.hours_le, o.minutes_le, htotal]

end Offset

section

variable {f : Fields} {fraction : List Char}

/-- Date and time of day, with the mark between them. -/
def Fields.internet (f : Fields) (mark : Char) (fraction : List Char) : List Char :=
  dateChars f.date ++ mark :: (padded 2 f.hour ++ ':' :: (padded 2 f.minute ++ ':' ::
    (padded 2 f.second ++ fraction)))

theorem length_internet (hf : f.FourDigits) (mark : Char) :
    (f.internet mark fraction).length = 19 + fraction.length := by
  obtain ⟨-, hy, hmonth, hday, hh, hm, hs, -⟩ := hf.fits
  have hyear := length_padded (w := 4) (by decide) (Nat.lt_succ_of_le hy)
  have htwo : ∀ n ≤ 99, (padded 2 n).length = 2 := fun n h =>
    length_padded (by decide) (Nat.lt_succ_of_le h)
  simp only [Fields.internet, dateChars, List.length_append, List.length_cons, hyear,
    htwo _ hmonth, htwo _ hday, htwo _ hh, htwo _ hm, htwo _ hs]
  omega

theorem Fraction.ascii {nanos : Nat} (h : Fraction nanos fraction) : Ascii fraction := by
  cases h with
  | none => exact ascii_nil
  | digits _ hds => exact ascii_cons.mpr ⟨by decide, ascii_of_isDigit hds⟩

theorem ascii_internet {nanos : Nat} (f : Fields) {mark : Char}
    (hmark : mark = 'T' ∨ mark = 't' ∨ mark = ' ') (h : Fraction nanos fraction) :
    Ascii (f.internet mark fraction) := by
  have hsize : mark.utf8Size = 1 := by rcases hmark with rfl | rfl | rfl <;> decide
  simp only [Fields.internet, dateChars, ascii_append, ascii_cons, ascii_padded, h.ascii, hsize,
    true_and, and_true]
  decide

theorem fractionField_append {nanos : Nat} (h : Fraction nanos fraction) (o : Offset) :
    fractionField (fraction ++ o.chars) = some (nanos, o.chars) := by
  cases h with
  | none h =>
    subst h
    unfold Offset.chars
    cases o.behind <;> rfl
  | @digits ds hne hds h =>
    obtain ⟨sign, r, hsign, hdigit⟩ : ∃ c r, o.chars = c :: r ∧ isDigit c = false := by
      unfold Offset.chars
      cases o.behind <;> exact ⟨_, _, rfl, rfl⟩
    have htake : (ds ++ o.chars).takeWhile isDigit = ds := by
      rw [List.takeWhile_append_of_pos hds, hsign, List.takeWhile_cons_of_neg (by simp [hdigit]),
        List.append_nil]
    have hdrop : (ds ++ o.chars).dropWhile isDigit = o.chars := by
      rw [List.dropWhile_append_of_pos hds, hsign, List.dropWhile_cons_of_neg (by simp [hdigit])]
    have hfull : ds.isEmpty = false := by simp [hne]
    simp only [List.cons_append, fractionField, htake, hdrop, hfull, valueOf_take_append_zeros, ← h,
      Bool.false_eq_true, if_false]

theorem bind_of_eq_some {α β : Type} {x : Option α} {a : α} {k : α → Option β}
    (h : x = some a) : (x >>= k) = k a := by
  rw [h]
  rfl

theorem readOffset_internet (hf : f.FourDigits) {mark : Char}
    (hmark : mark = 'T' ∨ mark = 't' ∨ mark = ' ') (hfraction : Fraction f.nanos fraction)
    (o : Offset) :
    readOffset (f.internet mark fraction ++ o.chars) =
      some ((ofFields f).before (60 * o.total)) := by
  obtain ⟨hyear, hy, hmonth, hday, hh, hm, hs, -⟩ := hf.fits
  have htwo : ∀ {n s}, n ≤ 99 → digitsExactly 2 (padded 2 n ++ s) = some (n, s) := fun h =>
    digitsExactly_padded (by decide) (Nat.lt_succ_of_le h)
  have hfour : ∀ s, digitsExactly 4 (padded 4 f.date.year.toNat ++ s) =
      some (f.date.year.toNat, s) := fun s =>
    digitsExactly_padded (by decide) (Nat.lt_succ_of_le hy)
  have hfields : (⟨⟨f.date.year.toNat, f.date.month, f.date.day⟩, f.hour, f.minute, f.second,
      f.nanos⟩ : Fields) = f := by rw [hyear]
  simp only [Fields.internet, dateChars, List.append_assoc, List.cons_append]
  unfold readOffset
  refine (bind_of_eq_some (hfour _)).trans ?_
  refine (bind_of_eq_some (literal_cons '-' _)).trans ?_
  refine (bind_of_eq_some (htwo hmonth)).trans ?_
  refine (bind_of_eq_some (literal_cons '-' _)).trans ?_
  refine (bind_of_eq_some (htwo hday)).trans ?_
  refine (bind_of_eq_some rfl).trans ?_
  refine (if_pos hmark).trans ?_
  refine (bind_of_eq_some (htwo hh)).trans ?_
  refine (bind_of_eq_some (literal_cons ':' _)).trans ?_
  refine (bind_of_eq_some (htwo hm)).trans ?_
  refine (bind_of_eq_some (literal_cons ':' _)).trans ?_
  refine (bind_of_eq_some (htwo hs)).trans ?_
  refine (bind_of_eq_some (fractionField_append hfraction o)).trans ?_
  refine (bind_of_eq_some o.offsetField_chars).trans ?_
  simp only [hfields]
  exact if_pos ⟨hf.real, trivial⟩

end

end Outline.Instant

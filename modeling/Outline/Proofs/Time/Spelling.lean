import Mathlib.Data.List.TakeWhile
import Mathlib.Data.String.Basic
import Outline.Proofs.Number.Digits
import Outline.Proofs.Time.Fields

/-!
# Spelled dates read back

A date of the years 0 to 9999 is spelled with all fields at their full width, down to the day,
the minute, the second or the millisecond. Each reader takes its own spelling and leaves what stands
behind it. The spelling down to the millisecond is the canonical text.
-/

namespace Outline

open Number

/-- A text of characters that take one byte each. -/
def Ascii (s : List Char) : Prop := ∀ c ∈ s, c.utf8Size = 1

@[simp] theorem ascii_nil : Ascii [] := fun _ hc => nomatch hc

@[simp] theorem ascii_cons {c : Char} {s : List Char} :
    Ascii (c :: s) ↔ c.utf8Size = 1 ∧ Ascii s := List.forall_mem_cons

@[simp] theorem ascii_append {s t : List Char} : Ascii (s ++ t) ↔ Ascii s ∧ Ascii t :=
  List.forall_mem_append

theorem ascii_of_isDigit {s : List Char} (h : ∀ c ∈ s, isDigit c = true) : Ascii s := by
  intro c hc
  have hdigit := h c hc
  simp only [isDigit, Bool.and_eq_true, decide_eq_true_eq, Char.le_def] at hdigit
  exact Char.utf8Size_eq_one_iff.mpr (UInt32.le_trans hdigit.2 (by decide))

@[simp] theorem ascii_padded (w n : Nat) : Ascii (padded w n) :=
  ascii_of_isDigit isDigit_of_mem_padded

theorem Ascii.utf8ByteSize {s : List Char} (h : Ascii s) :
    (String.ofList s).utf8ByteSize = s.length := by
  rw [String.utf8ByteSize_ofList]
  induction s with
  | nil => rfl
  | cons c s ih =>
    obtain ⟨hc, hs⟩ := ascii_cons.mp h
    rw [String.utf8Len, ih hs, hc, List.length_cons]

namespace Instant

/-! ## Single fields -/

section

variable {n w : Nat} {s : List Char}

@[simp] theorem literal_cons (c : Char) (s : List Char) : literal c (c :: s) = some s := if_pos rfl

theorem padded_eq_cons (hw : 0 < w) (h : n < 10 ^ w) :
    ∃ c r, padded w n = c :: r ∧ isDigit c = true := by
  cases hp : padded w n with
  | nil =>
    have hlen := length_padded hw h
    rw [hp] at hlen
    exact absurd hw (by rw [← hlen]; exact Nat.lt_irrefl 0)
  | cons c r => exact ⟨c, r, rfl, isDigit_of_mem_padded c (by rw [hp]; exact List.mem_cons_self)⟩

theorem trimStart_padded (hw : 0 < w) (h : n < 10 ^ w) :
    Text.trimStart (padded w n ++ s) = padded w n ++ s := by
  obtain ⟨c, r, hcons, hc⟩ := padded_eq_cons hw h
  rw [hcons, List.cons_append, Text.trimStart, List.dropWhile_cons_of_neg]
  simp [isBlank_of_isDigit hc]

theorem take_padded (hw : 0 < w) (h : n < 10 ^ w) : (padded w n ++ s).take w = padded w n := by
  rw [List.take_append_of_le_length (Nat.le_of_eq (length_padded hw h).symm),
    List.take_of_length_le (Nat.le_of_eq (length_padded hw h))]

theorem drop_padded (hw : 0 < w) (h : n < 10 ^ w) : (padded w n ++ s).drop w = s := by
  rw [List.drop_append_of_le_length (Nat.le_of_eq (length_padded hw h).symm),
    List.drop_of_length_le (Nat.le_of_eq (length_padded hw h)), List.nil_append]

theorem digitsUpTo_padded (hw : 0 < w) (h : n < 10 ^ w) :
    digitsUpTo w (padded w n ++ s) = some (n, s) := by
  obtain ⟨c, r, hcons, -⟩ := padded_eq_cons hw h
  have hall : (padded w n).takeWhile isDigit = padded w n :=
    List.takeWhile_eq_self_iff.mpr isDigit_of_mem_padded
  have hne : (padded w n).isEmpty = false := by rw [hcons]; rfl
  simp only [digitsUpTo, take_padded hw h, hall, hne, valueOf_padded, length_padded hw h,
    drop_padded hw h, Bool.false_eq_true, if_false]

theorem digitsExactly_padded (hw : 0 < w) (h : n < 10 ^ w) :
    digitsExactly w (padded w n ++ s) = some (n, s) := by
  have hall : (padded w n).all isDigit = true := List.all_eq_true.mpr isDigit_of_mem_padded
  simp only [digitsExactly, take_padded hw h, length_padded hw h, hall, valueOf_padded,
    drop_padded hw h, and_self, if_true]

theorem shortField_padded (h : n ≤ 99) : shortField (padded 2 n ++ s) = some (n, s) := by
  have hn : n < 10 ^ 2 := Nat.lt_succ_of_le h
  rw [shortField, trimStart_padded (by decide) hn, digitsUpTo_padded (by decide) hn]

theorem yearField_padded (h : n ≤ 9999) : yearField (padded 4 n ++ s) = some ((n : Int), s) := by
  have hn : n < 10 ^ 4 := Nat.lt_succ_of_le h
  obtain ⟨c, r, hcons, hc⟩ := padded_eq_cons (by decide) hn
  have htaken := digitsUpTo_padded (s := s) (by decide) hn
  rw [yearField, trimStart_padded (by decide) hn]
  split
  · rename_i heq
    rw [hcons] at heq
    cases heq
    cases hc
  · rename_i heq
    rw [hcons] at heq
    cases heq
    cases hc
  · rw [htaken]
    rfl

end

/-! ## Spellings -/

/-- Fields with a year of four digits. -/
def Fields.FourDigits (f : Fields) : Prop := f.Valid ∧ 0 ≤ f.date.year ∧ f.date.year ≤ 9999

instance (f : Fields) : Decidable f.FourDigits := inferInstanceAs (Decidable (_ ∧ _))

theorem Fields.FourDigits.real {f : Fields} (hf : f.FourDigits) : f.Real := by
  obtain ⟨⟨hdate, hrest⟩, hlo, hhi⟩ := hf
  refine ⟨Calendar.real_iff.mpr ⟨?_, hdate⟩, hrest⟩
  simp only [Calendar.minYear, Calendar.maxYear]
  omega

def dateChars (d : Calendar) : List Char :=
  padded 4 d.year.toNat ++ '-' :: (padded 2 d.month ++ '-' :: padded 2 d.day)

def Fields.clockChars (f : Fields) : Spelling → List Char
  | .day => []
  | .minute => 'T' :: (padded 2 f.hour ++ ':' :: padded 2 f.minute)
  | .second => 'T' :: (padded 2 f.hour ++ ':' :: (padded 2 f.minute ++ ':' :: padded 2 f.second))
  | .millisecond => 'T' :: (padded 2 f.hour ++ ':' :: (padded 2 f.minute ++ ':' ::
      (padded 2 f.second ++ '.' :: (padded 3 (f.nanos / 1000000) ++ ['Z']))))

def Fields.spelled (f : Fields) (spelling : Spelling) : List Char :=
  dateChars f.date ++ f.clockChars spelling

def Spelling.width : Spelling → Nat
  | .day => 10
  | .minute => 16
  | .second => 19
  | .millisecond => 24

theorem spelling?_width (spelling : Spelling) : spelling? spelling.width = some spelling := by
  cases spelling <;> rfl

theorem ascii_spelled (f : Fields) (spelling : Spelling) : Ascii (f.spelled spelling) := by
  cases spelling <;> simp [Fields.spelled, Fields.clockChars, dateChars] <;> decide

/-- The fields that are spelled; the others are zero. -/
def Fields.upTo (f : Fields) : Spelling → Fields
  | .day => ⟨f.date, 0, 0, 0, 0⟩
  | .minute => ⟨f.date, f.hour, f.minute, 0, 0⟩
  | .second => ⟨f.date, f.hour, f.minute, f.second, 0⟩
  | .millisecond => f.wholeMillis

theorem Fields.FourDigits.upTo {f : Fields} (hf : f.FourDigits) (spelling : Spelling) :
    (f.upTo spelling).FourDigits := by
  obtain ⟨⟨hdate, hhour, hminute, hsecond, hnanos⟩, hyear⟩ := hf
  have hzero : 0 < nanosPerSecond := by decide
  have hmillis : f.nanos / 1000000 * 1000000 ≤ f.nanos := Nat.div_mul_le_self _ _
  cases spelling with
  | day => exact ⟨⟨hdate, Nat.zero_le _, Nat.zero_le _, Nat.zero_le _, hzero⟩, hyear⟩
  | minute => exact ⟨⟨hdate, hhour, hminute, Nat.zero_le _, hzero⟩, hyear⟩
  | second => exact ⟨⟨hdate, hhour, hminute, hsecond, hzero⟩, hyear⟩
  | millisecond =>
    exact ⟨⟨hdate, hhour, hminute, hsecond, Nat.lt_of_le_of_lt hmillis hnanos⟩, hyear⟩

section

variable {f : Fields} (hf : f.FourDigits)
include hf

theorem Fields.FourDigits.fits : (f.date.year.toNat : Int) = f.date.year ∧
    f.date.year.toNat ≤ 9999 ∧ f.date.month ≤ 99 ∧ f.date.day ≤ 99 ∧ f.hour ≤ 99 ∧
    f.minute ≤ 99 ∧ f.second ≤ 99 ∧ f.nanos / 1000000 ≤ 999 := by
  obtain ⟨⟨⟨-, hmonth, -, hday⟩, hhour, hminute, hsecond, hnanos⟩, hlo, hhi⟩ := hf
  have hdays := (Calendar.daysInMonth_bounds f.date.year f.date.month).2
  simp only [nanosPerSecond] at hnanos
  omega

theorem dateFields_dateChars (s : List Char) :
    dateFields (dateChars f.date ++ s) = some (f.date, s) := by
  obtain ⟨hyear, hy, hm, hd, -⟩ := hf.fits
  simp only [dateFields, dateChars, List.append_assoc, List.cons_append, yearField_padded hy,
    shortField_padded hm, shortField_padded hd, hyear, Option.bind_eq_bind, Option.bind_some,
    literal_cons, pure]

theorem millisField_padded (s : List Char) :
    millisField ('.' :: (padded 3 (f.nanos / 1000000) ++ s)) =
      some (f.wholeMillis.nanos, s) := by
  obtain ⟨-, -, -, -, -, -, -, hn⟩ := hf.fits
  rw [millisField, digitsExactly_padded (by decide) (Nat.lt_succ_of_le hn)]
  rfl

theorem fieldsIn_spelled (spelling : Spelling) (s : List Char) :
    fieldsIn spelling (f.spelled spelling ++ s) = some (f.upTo spelling, s) := by
  obtain ⟨-, -, -, -, hh, hm, hs, -⟩ := hf.fits
  cases spelling <;>
    simp [fieldsIn, Fields.spelled, Fields.clockChars, dateFields_dateChars hf, Fields.upTo,
      Fields.wholeMillis,
      shortField_padded hh, shortField_padded hm, shortField_padded hs, millisField_padded hf]

theorem length_spelled (spelling : Spelling) :
    (f.spelled spelling).length = spelling.width := by
  obtain ⟨-, hy, hmonth, hday, hh, hm, hs, hn⟩ := hf.fits
  have hyear := length_padded (w := 4) (by decide) (Nat.lt_succ_of_le hy)
  have hmillis := length_padded (w := 3) (by decide) (Nat.lt_succ_of_le hn)
  have htwo : ∀ n ≤ 99, (padded 2 n).length = 2 := fun n h =>
    length_padded (by decide) (Nat.lt_succ_of_le h)
  cases spelling <;>
    simp [Fields.spelled, Fields.clockChars, dateChars, Spelling.width, hyear, hmillis,
      htwo _ hmonth, htwo _ hday, htwo _ hh, htwo _ hm, htwo _ hs]

theorem readUniversal_spelled (spelling : Spelling) :
    readUniversal (f.spelled spelling) = some (ofFields (f.upTo spelling)) := by
  have hread := fieldsIn_spelled hf spelling []
  rw [List.append_nil] at hread
  rw [readUniversal, (ascii_spelled f spelling).utf8ByteSize, length_spelled hf, spelling?_width]
  simp only [Option.bind_eq_bind, Option.bind_some, hread, (hf.upTo spelling).real, and_self,
    if_true]

theorem chars_eq_spelled : f.chars = f.spelled .millisecond := by
  obtain ⟨-, hlo, hhi⟩ := hf
  have hyear : f.date.year.natAbs = f.date.year.toNat := by omega
  simp only [Fields.chars, yearText, if_pos (And.intro hlo hhi), hyear, Fields.spelled, dateChars,
    Fields.clockChars, List.append_assoc, List.cons_append]

end

end Instant
end Outline

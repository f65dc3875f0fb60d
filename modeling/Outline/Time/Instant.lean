import Outline.Error
import Outline.Number.Digits
import Outline.Text.Blank
import Outline.Time.Calendar

/-!
# Points in time

An instant is a number of seconds since 1970-01-01 in universal time with nanoseconds. During
a leap second the nanoseconds go on past a whole second. Instants are written with
milliseconds as `2020-12-23T23:59:11.000Z`; several spellings are read.
-/

namespace Outline

structure Instant where
  seconds : Int
  nanos : Nat
  deriving DecidableEq, Repr, Inhabited

namespace Instant

open Number

def secondsPerDay : Int := 86400
def nanosPerSecond : Nat := 1000000000

def date (i : Instant) : Calendar := Calendar.ofDays (i.seconds / secondsPerDay)

def clock (i : Instant) : Nat := (i.seconds % secondsPerDay).toNat

/-- An instant that exists: its date is in range, and only the last second of a minute may be
followed by a leap second. -/
def Real (i : Instant) : Prop :=
  i.date.Real ∧ i.nanos < 2 * nanosPerSecond ∧
    (nanosPerSecond ≤ i.nanos → i.clock % 60 = 59)

instance (i : Instant) : Decidable i.Real := inferInstanceAs (Decidable (_ ∧ _))

/-- Date and time of day, with the second counted up to 60. -/
structure Fields where
  date : Calendar
  hour : Nat
  minute : Nat
  second : Nat
  nanos : Nat
  deriving DecidableEq, Repr

/-- Fields that name an instant. -/
def Fields.Real (f : Fields) : Prop :=
  f.date.Real ∧ f.hour ≤ 23 ∧ f.minute ≤ 59 ∧ f.second ≤ 60 ∧ f.nanos < nanosPerSecond

instance (f : Fields) : Decidable f.Real := inferInstanceAs (Decidable (_ ∧ _))

/-- The instant that the fields name; second 60 is a leap second after second 59. -/
def ofFields (f : Fields) : Instant where
  seconds := f.date.toDays * secondsPerDay + (f.hour * 3600 + f.minute * 60 + min f.second 59 : Nat)
  nanos := f.nanos + (if f.second = 60 then nanosPerSecond else 0)

def toFields (i : Instant) : Fields where
  date := i.date
  hour := i.clock / 3600
  minute := i.clock / 60 % 60
  second := i.clock % 60 + i.nanos / nanosPerSecond
  nanos := i.nanos % nanosPerSecond

/-- Years from 0 to 9999 have four digits; all others have a sign. -/
def yearText (y : Int) : List Char :=
  if 0 ≤ y ∧ y ≤ 9999 then padded 4 y.natAbs
  else (if y < 0 then '-' else '+') :: padded 4 y.natAbs

def Fields.chars (f : Fields) : List Char :=
  yearText f.date.year ++ '-' :: padded 2 f.date.month ++ '-' :: padded 2 f.date.day ++
    'T' :: padded 2 f.hour ++ ':' :: padded 2 f.minute ++ ':' :: padded 2 f.second ++
    '.' :: padded 3 (f.nanos / 1000000) ++ ['Z']

/-- The canonical text. Milliseconds are cut, not rounded. -/
def text (i : Instant) : String := String.ofList i.toFields.chars

/-! ## Reading -/

abbrev Taken := Option (Nat × List Char)

def digitsUpTo (width : Nat) (s : List Char) : Taken :=
  let ds := (s.take width).takeWhile isDigit
  if ds.isEmpty then none else some (valueOf ds, s.drop ds.length)

def digitsExactly (width : Nat) (s : List Char) : Taken :=
  let ds := s.take width
  if ds.length = width ∧ ds.all isDigit then some (valueOf ds, s.drop width) else none

def literal (c : Char) : List Char → Option (List Char)
  | x :: s => if x = c then some s else none
  | [] => none

/-- A field of one or two digits, behind blanks. -/
def shortField (s : List Char) : Taken := digitsUpTo 2 (Text.trimStart s)

/-- A year of up to four digits, or of any number of digits behind a sign. -/
def yearField (s : List Char) : Option (Int × List Char) :=
  match Text.trimStart s with
  | '-' :: r => (digitsUpTo r.length r).map fun (n, t) => (-(n : Int), t)
  | '+' :: r => (digitsUpTo r.length r).map fun (n, t) => ((n : Int), t)
  | r => (digitsUpTo 4 r).map fun (n, t) => ((n : Int), t)

def dateFields (s : List Char) : Option (Calendar × List Char) := do
  let (year, s) ← yearField s
  let (month, s) ← shortField (← literal '-' s)
  let (day, s) ← shortField (← literal '-' s)
  return (⟨year, month, day⟩, s)

def millisField : List Char → Taken
  | '.' :: s => (digitsExactly 3 s).map fun (n, r) => (n * 1000000, r)
  | s => some (0, s)

/-- How far down the time of day is spelled out. -/
inductive Spelling
  | day
  | minute
  | second
  | millisecond
  deriving DecidableEq, Repr

/-- The fields of a date in one of the four spellings that are read as universal time. -/
def fieldsIn (spelling : Spelling) (s : List Char) : Option (Fields × List Char) := do
  let (date, s) ← dateFields s
  if spelling = .day then return (⟨date, 0, 0, 0, 0⟩, s)
  let (hour, s) ← shortField (← literal 'T' s)
  let (minute, s) ← shortField (← literal ':' s)
  if spelling = .minute then return (⟨date, hour, minute, 0, 0⟩, s)
  let (second, s) ← shortField (← literal ':' s)
  if spelling = .second then return (⟨date, hour, minute, second, 0⟩, s)
  let (nanos, s) ← millisField s
  return (⟨date, hour, minute, second, nanos⟩, ← literal 'Z' s)

/-- The spelling is known by the length of the text in bytes. -/
def spelling? (bytes : Nat) : Option Spelling :=
  match bytes with
  | 10 => some .day
  | 16 => some .minute
  | 19 => some .second
  | 24 => some .millisecond
  | _ => none

def readUniversal (s : List Char) : Option Instant := do
  let spelling ← spelling? (String.ofList s).utf8ByteSize
  let (fields, rest) ← fieldsIn spelling s
  if fields.Real ∧ rest = [] then some (ofFields fields) else none

/-- Digits behind a point, of which nine count; nothing if there is no point. -/
def fractionField : List Char → Taken
  | '.' :: s =>
    let ds := s.takeWhile isDigit
    if ds.isEmpty then none
    else some (valueOf ((ds ++ List.replicate 9 '0').take 9), s.dropWhile isDigit)
  | s => some (0, s)

def offsetField (s : List Char) : Option (Int × List Char) :=
  match s with
  | [] => none
  | c :: r =>
    if c = 'Z' ∨ c = 'z' then some (0, r)
    else if c = '+' ∨ c = '-' ∨ c = '\u2212' then do
      let (hours, r) ← digitsExactly 2 r
      let (minutes, r) ← digitsExactly 2 (← literal ':' r)
      if hours ≤ 23 ∧ minutes ≤ 59 then
        let n : Int := (hours * 3600 + minutes * 60 : Nat)
        some (if c = '+' then n else -n, r)
      else none
    else none

/-- Date, time and offset in internet notation, every field at its full width. -/
def readOffset (s : List Char) : Option Instant := do
  let (year, s) ← digitsExactly 4 s
  let (month, s) ← digitsExactly 2 (← literal '-' s)
  let (day, s) ← digitsExactly 2 (← literal '-' s)
  let (mark, s) ← s.head?.map fun c => (c, s.tail)
  if mark = 'T' ∨ mark = 't' ∨ mark = ' ' then
    let (hour, s) ← digitsExactly 2 s
    let (minute, s) ← digitsExactly 2 (← literal ':' s)
    let (second, s) ← digitsExactly 2 (← literal ':' s)
    let (nanos, s) ← fractionField s
    let (offset, rest) ← offsetField s
    let fields : Fields := ⟨⟨year, month, day⟩, hour, minute, second, nanos⟩
    if fields.Real ∧ rest = [] then
      let i := ofFields fields
      some { i with seconds := i.seconds - offset }
    else none
  else none

def parse? (s : List Char) : Option Instant := (readUniversal s).orElse fun _ => readOffset s

/-- A malformed date is reported under its tag, also where no tag was written. -/
def parse (raw : String) : Except Error Instant :=
  match parse? raw.toList with
  | some i => .ok i
  | none => .error (.invalidValue "date" raw .malformed)

end Instant
end Outline

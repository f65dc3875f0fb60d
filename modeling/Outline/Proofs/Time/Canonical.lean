import Outline.Proofs.Time.Internet

/-!
# The canonical text of a date

What is read is printed in a form that is read again exactly if its year has four digits
(`parse_canonical`): a year outside of 0 to 9999 gets a sign, and no spelling has room for it.
Within these years, all spellings of a date agree (`parse_spellings`).
-/

namespace Outline.Instant

open Number

/-! ## What reading gives -/

theorem minutes_of_offsetField {s r : List Char} {n : Int} (h : offsetField s = some (n, r)) :
    ∃ minutes, n = 60 * minutes := by
  unfold offsetField at h
  split at h
  · cases h
  split at h
  · cases h
    exact ⟨0, rfl⟩
  split at h
  · obtain ⟨⟨hours, s₁⟩, -, h⟩ := Option.bind_eq_some_iff.mp h
    obtain ⟨s₂, -, h⟩ := Option.bind_eq_some_iff.mp h
    obtain ⟨⟨minutes, s₃⟩, -, h⟩ := Option.bind_eq_some_iff.mp h
    obtain ⟨-, h⟩ := Option.ite_none_right_eq_some.mp h
    obtain ⟨hn, -⟩ := Prod.mk.inj (Option.some.inj h)
    have hmul : ((hours * 3600 + minutes * 60 : Nat) : Int) = 60 * (hours * 60 + minutes) := by
      omega
    rw [← hn, hmul]
    split
    · exact ⟨_, rfl⟩
    · exact ⟨-(hours * 60 + minutes), by rw [Int.mul_neg]⟩
  · cases h

theorem proper_of_readUniversal {s : List Char} {i : Instant} (h : readUniversal s = some i) :
    i.Proper := by
  obtain ⟨spelling, -, h⟩ := Option.bind_eq_some_iff.mp h
  obtain ⟨⟨f, rest⟩, -, h⟩ := Option.bind_eq_some_iff.mp h
  obtain ⟨⟨hreal, -⟩, h⟩ := Option.ite_none_right_eq_some.mp h
  cases h
  exact proper_ofFields hreal.valid

/-- An offset is a whole number of minutes, so a leap second stays at the end of one. -/
theorem proper_of_readOffset {s : List Char} {i : Instant} (h : readOffset s = some i) :
    i.Proper := by
  obtain ⟨⟨year, s⟩, -, h⟩ := Option.bind_eq_some_iff.mp h
  obtain ⟨s, -, h⟩ := Option.bind_eq_some_iff.mp h
  obtain ⟨⟨month, s⟩, -, h⟩ := Option.bind_eq_some_iff.mp h
  obtain ⟨s, -, h⟩ := Option.bind_eq_some_iff.mp h
  obtain ⟨⟨day, s⟩, -, h⟩ := Option.bind_eq_some_iff.mp h
  obtain ⟨⟨mark, s⟩, -, h⟩ := Option.bind_eq_some_iff.mp h
  obtain ⟨-, h⟩ := Option.ite_none_right_eq_some.mp h
  obtain ⟨⟨hour, s⟩, -, h⟩ := Option.bind_eq_some_iff.mp h
  obtain ⟨s, -, h⟩ := Option.bind_eq_some_iff.mp h
  obtain ⟨⟨minute, s⟩, -, h⟩ := Option.bind_eq_some_iff.mp h
  obtain ⟨s, -, h⟩ := Option.bind_eq_some_iff.mp h
  obtain ⟨⟨second, s⟩, -, h⟩ := Option.bind_eq_some_iff.mp h
  obtain ⟨⟨nanos, s⟩, -, h⟩ := Option.bind_eq_some_iff.mp h
  obtain ⟨⟨offset, rest⟩, hoffset, h⟩ := Option.bind_eq_some_iff.mp h
  obtain ⟨⟨hreal, -⟩, h⟩ := Option.ite_none_right_eq_some.mp h
  obtain ⟨minutes, rfl⟩ := minutes_of_offsetField hoffset
  cases h
  exact (proper_ofFields hreal.valid).before minutes

theorem proper_of_parse {raw : String} {i : Instant} (h : parse raw = .ok i) : i.Proper := by
  unfold parse at h
  split at h
  · rename_i j hj
    cases h
    unfold parse? at hj
    cases huniversal : readUniversal raw.toList with
    | none =>
      rw [huniversal] at hj
      exact proper_of_readOffset hj
    | some k =>
      rw [huniversal] at hj
      cases hj
      exact proper_of_readUniversal huniversal
  · cases h

/-! ## Printed dates -/

theorem parse_of_readUniversal {s : List Char} {i : Instant} (h : readUniversal s = some i) :
    parse (String.ofList s) = .ok i := by
  rw [parse, String.toList_ofList, parse?, h]
  rfl

/-- A longer text than the canonical one can only be in internet notation. -/
theorem parse?_of_long {s : List Char} (hs : Ascii s) (hlen : 24 < s.length) :
    parse? s = readOffset s := by
  have hnone : spelling? s.length = none := by
    unfold spelling?
    split <;> first | rfl | omega
  rw [parse?, readUniversal, hs.utf8ByteSize, hnone]
  rfl

/-- Four digits stand at the front of a date in internet notation. -/
theorem readOffset_of_not_isDigit {c : Char} (hc : isDigit c = false) (s : List Char) :
    readOffset (c :: s) = none := by
  have hnone : digitsExactly 4 (c :: s) = none := by simp [digitsExactly, hc]
  rw [readOffset, hnone]
  rfl

theorem le_length_padded (w n : Nat) : w ≤ (padded w n).length := by
  rw [padded, List.length_append, List.length_replicate]
  omega

theorem ascii_chars (f : Fields) : Ascii f.chars := by
  have hyear : Ascii (yearText f.date.year) := by
    unfold yearText
    split
    · exact ascii_padded _ _
    · exact ascii_cons.mpr ⟨by split <;> decide, ascii_padded _ _⟩
  simp only [Fields.chars, ascii_append, ascii_cons, ascii_padded, ascii_nil, hyear, true_and,
    and_true]
  decide

/-- A year with a sign makes a text that no reader takes. -/
theorem parse?_chars_of_sign {f : Fields} (hyear : ¬ (0 ≤ f.date.year ∧ f.date.year ≤ 9999)) :
    parse? f.chars = none := by
  obtain ⟨sign, hsign, htext⟩ : ∃ sign, isDigit sign = false ∧
      yearText f.date.year = sign :: padded 4 f.date.year.natAbs := by
    rw [yearText, if_neg hyear]
    split <;> exact ⟨_, rfl, rfl⟩
  obtain ⟨rest, hrest⟩ : ∃ rest, f.chars = sign :: rest := by
    simp only [Fields.chars, htext, List.cons_append]
    exact ⟨_, rfl⟩
  have hlen : 24 < f.chars.length := by
    have hyear := le_length_padded 4 f.date.year.natAbs
    have hmonth := le_length_padded 2 f.date.month
    have hday := le_length_padded 2 f.date.day
    have hhour := le_length_padded 2 f.hour
    have hminute := le_length_padded 2 f.minute
    have hsecond := le_length_padded 2 f.second
    have hmillis := le_length_padded 3 (f.nanos / 1000000)
    simp only [Fields.chars, htext, List.length_append, List.length_cons, List.length_nil]
    omega
  rw [parse?_of_long (ascii_chars f) hlen, hrest, readOffset_of_not_isDigit hsign]

/-- The printed date is read again, without what is below a millisecond, exactly if the year has
four digits; otherwise it is malformed. -/
theorem parse_canonical {raw : String} {i : Instant} (h : parse raw = .ok i) :
    (parse i.text = .ok i.wholeMillis ↔ 0 ≤ i.date.year ∧ i.date.year ≤ 9999) ∧
      (¬ (0 ≤ i.date.year ∧ i.date.year ≤ 9999) →
        parse i.text = .error (.invalidValue "date" i.text .malformed)) := by
  have hproper := proper_of_parse h
  have hsigned : ¬ (0 ≤ i.date.year ∧ i.date.year ≤ 9999) →
      parse i.text = .error (.invalidValue "date" i.text .malformed) := by
    intro hyear
    have hnone := parse?_chars_of_sign (f := i.toFields) hyear
    simp only [parse, text, String.toList_ofList, hnone]
  refine ⟨⟨fun hback => ?_, fun hyear => ?_⟩, hsigned⟩
  · by_contra hyear
    rw [hsigned hyear] at hback
    cases hback
  · have hfields : i.toFields.FourDigits := ⟨valid_toFields hproper, hyear⟩
    rw [text, chars_eq_spelled hfields,
      parse_of_readUniversal (readUniversal_spelled hfields .millisecond), Fields.upTo,
      ofFields_wholeMillis hproper]

/-- A leap second is kept and its fraction cut. The last second of the year 9999, an hour west of
universal time, is printed with a sign. -/
theorem parse_canonical_yearEnd :
    (∃ i, parse "2016-12-31T23:59:60.98765Z" = .ok i ∧ i.text = "2016-12-31T23:59:60.987Z" ∧
      parse i.text = .ok i.wholeMillis) ∧
    ∃ i, parse "9999-12-31T23:59:59-01:00" = .ok i ∧ i.text = "+10000-01-01T00:59:59.000Z" ∧
      parse i.text = .error (.invalidValue "date" i.text .malformed) := by
  have hleap : parse "2016-12-31T23:59:60.98765Z" = .ok ⟨1483228799, 1987650000⟩ := by
    decide +kernel
  have hlast : parse "9999-12-31T23:59:59-01:00" = .ok ⟨253402304399, 0⟩ := by decide +kernel
  exact ⟨⟨_, hleap, by decide +kernel, (parse_canonical hleap).1.mpr (by decide +kernel)⟩,
    _, hlast, by decide +kernel, (parse_canonical hlast).2 (by decide +kernel)⟩

/-! ## All spellings -/

theorem Fields.upTo_upTo (f : Fields) (spelling : Spelling) :
    (f.upTo spelling).upTo .millisecond = f.upTo spelling := by
  cases spelling <;> simp [Fields.upTo, Fields.wholeMillis]

/-- With an offset, the text is longer than the ones that are read as universal time. -/
theorem parse_internet {f : Fields} (hf : f.FourDigits) {mark : Char}
    (hmark : mark = 'T' ∨ mark = 't' ∨ mark = ' ') {fraction : List Char}
    (hfraction : Fraction f.nanos fraction) (o : Offset) :
    parse (.ofList (f.internet mark fraction ++ o.chars)) =
      .ok ((ofFields f).before (60 * o.total)) := by
  have hlen : 24 < (f.internet mark fraction ++ o.chars).length := by
    rw [List.length_append, length_internet hf, o.length_chars]
    omega
  have hascii : Ascii (f.internet mark fraction ++ o.chars) :=
    ascii_append.mpr ⟨ascii_internet f hmark hfraction, o.ascii_chars⟩
  rw [parse, String.toList_ofList, parse?_of_long hascii hlen,
    readOffset_internet hf hmark hfraction]

/-- Down to the millisecond, a date is printed as it was spelled. The shorter spellings read as
that one with zeros in it, and a date with an offset reads as that one with the offset taken off:
the date goes to the day before or after where the time of day leaves the day. -/
theorem parse_spellings {f : Fields} (hf : f.FourDigits) (hmillis : f.nanos % 1000000 = 0) :
    (parse (.ofList (f.spelled .millisecond))).map text =
        .ok (.ofList (f.spelled .millisecond)) ∧
      (∀ spelling, (f.spelled spelling).length = spelling.width ∧
        ∃ i, parse (.ofList (f.spelled spelling)) = .ok i ∧
          parse (.ofList ((f.upTo spelling).spelled .millisecond)) = .ok i) ∧
      ∀ mark fraction (o : Offset), mark = 'T' ∨ mark = 't' ∨ mark = ' ' →
        Fraction f.nanos fraction →
        ∃ i, parse (.ofList (f.spelled .millisecond)) = .ok i ∧ i.toFields = f ∧
          parse (.ofList (f.internet mark fraction ++ o.chars)) =
            .ok (i.before (60 * o.total)) ∧
          Earlier f o.total (i.before (60 * o.total)).toFields := by
  have hwhole : f.upTo .millisecond = f := by
    have hnanos : f.nanos / 1000000 * 1000000 = f.nanos := by omega
    simp only [Fields.upTo, Fields.wholeMillis, hnanos]
  have hread : ∀ spelling, parse (.ofList (f.spelled spelling)) =
      .ok (ofFields (f.upTo spelling)) := fun spelling =>
    parse_of_readUniversal (readUniversal_spelled hf spelling)
  have hcanonical := hread .millisecond
  rw [hwhole] at hcanonical
  refine ⟨?_, fun spelling => ⟨length_spelled hf spelling, _, hread spelling, ?_⟩, ?_⟩
  · rw [hcanonical, Except.map, text, toFields_ofFields hf.1, chars_eq_spelled hf]
  · rw [parse_of_readUniversal (readUniversal_spelled (hf.upTo spelling) .millisecond),
      Fields.upTo_upTo]
  · intro mark fraction o hmark hfraction
    obtain ⟨hlo, hhi⟩ := o.total_bounds
    exact ⟨_, hcanonical, toFields_ofFields hf.1, parse_internet hf hmark hfraction o,
      earlier_before hf.1 hlo hhi⟩

/-- A leap second before midnight, two hours west of universal time, on the last day before a leap
day. -/
theorem parse_spellings_leapDay :
    let f : Fields := ⟨⟨2020, 2, 28⟩, 23, 59, 60, 120000000⟩
    let o : Offset := ⟨true, 2, 0, by decide, by decide⟩
    String.ofList (f.spelled .millisecond) = "2020-02-28T23:59:60.120Z" ∧
      String.ofList (f.spelled .minute) = "2020-02-28T23:59" ∧
      String.ofList (f.internet ' ' ['.', '1', '2'] ++ o.chars) = "2020-02-28 23:59:60.12-02:00" ∧
      ∃ i j, parse "2020-02-28T23:59" = .ok i ∧ parse "2020-02-28T23:59:00.000Z" = .ok i ∧
        parse "2020-02-28 23:59:60.12-02:00" = .ok j ∧
        j.toFields = ⟨⟨2020, 2, 29⟩, 1, 59, 60, 120000000⟩ := by
  intro f o
  have hf : f.FourDigits := by decide
  obtain ⟨-, hshort, hoffset⟩ := parse_spellings hf (by decide)
  have htext : String.ofList (f.spelled .millisecond) = "2020-02-28T23:59:60.120Z" := by
    decide +kernel
  have hminute : String.ofList (f.spelled .minute) = "2020-02-28T23:59" := by decide +kernel
  have hfilled : String.ofList ((f.upTo .minute).spelled .millisecond) =
      "2020-02-28T23:59:00.000Z" := by decide +kernel
  have hwest : String.ofList (f.internet ' ' ['.', '1', '2'] ++ o.chars) =
      "2020-02-28 23:59:60.12-02:00" := by decide +kernel
  have hfraction : Fraction f.nanos ['.', '1', '2'] :=
    .digits (by decide) (List.all_eq_true.mp rfl) (by decide)
  obtain ⟨-, i, hi, hi'⟩ := hshort .minute
  obtain ⟨k, -, hk, hj, hearlier⟩ := hoffset ' ' _ o (by decide) hfraction
  rw [hminute] at hi
  rw [hfilled] at hi'
  rw [hwest] at hj
  refine ⟨htext, hminute, hwest, i, _, hi, hi', hj, ?_⟩
  obtain ⟨⟨-, -, hbelow, -⟩, hclock, hsecond, hnanos, -, -, hdate⟩ := hearlier
  generalize (k.before (60 * o.total)).toFields = g at *
  have hclock : (g.hour * 60 + g.minute : Int) = 119 := hclock.trans (by decide)
  have hhour : g.hour = 1 := by omega
  have hlast : g.minute = 59 := by omega
  calc g = ⟨g.date, g.hour, g.minute, g.second, g.nanos⟩ := rfl
    _ = ⟨f.date.next, 1, 59, f.second, f.nanos⟩ := by
      rw [hdate (by decide), hhour, hlast, hsecond, hnanos]
    _ = ⟨⟨2020, 2, 29⟩, 1, 59, 60, 120000000⟩ := by decide

end Outline.Instant

import Outline.Number.Decimal
import Outline.Proofs.Number.Digits

/-!
# Decimal numbers read back

The digits of a decimal number are read back as they stand, trailing zeros included. Only the
sign of a zero is lost on the way.
-/

namespace Outline.Decimal

open Number

/-- The same number with the sign that reading leaves to it. -/
def reread (d : Decimal) : Decimal := { d with negative := d.negative && d.mantissa != 0 }

/-- A zero with a sign. -/
def NegativeZero (d : Decimal) : Prop := d.negative = true ∧ d.mantissa = 0

instance (d : Decimal) : Decidable d.NegativeZero := inferInstanceAs (Decidable (_ ∧ _))

theorem equal_reread (d : Decimal) : d.equal d.reread = true := by
  by_cases h : d.mantissa = 0
  · simp [equal, reread, h]
  · simp [equal, reread, h]

theorem ofRead?_eq (d : Decimal) :
    ofRead? d.negative d.mantissa d.scale = some d.reread :=
  ofParts?_self d.reread

/-- A run of digits adds to the mantissa, and behind the point to the scale. -/
theorem readFrom_digits {started point : Bool} {m v k : Nat} {s : List Char} (rest : List Char)
    (h : ofDigitsFrom 10 m s = some v) (hv : v < limit)
    (hpoint : point = true → k + s.length ≤ maxScale) (hk : point = false → k = 0) :
    readFrom started point m k (s ++ rest) =
      readFrom (started || !s.isEmpty) point v (if point then k + s.length else 0) rest := by
  induction s generalizing started m k with
  | nil =>
    obtain rfl := Option.some.inj h
    cases point
    · simp [hk rfl]
    · simp
  | cons c s ih =>
    rw [ofDigitsFrom, Option.bind_eq_some_iff] at h
    obtain ⟨d, hd, h⟩ := h
    have hlt : 10 * m + d < limit := Nat.lt_of_le_of_lt (le_of_ofDigitsFrom (by decide) h) hv
    have hroom : (point && k == maxScale) = false := by
      cases point with
      | false => rfl
      | true =>
        have hlen := hpoint rfl
        rw [List.length_cons] at hlen
        simp only [Bool.true_and, beq_eq_false_iff_ne]
        omega
    rw [List.cons_append, readFrom, hroom]
    simp only [hd, hlt, if_true, Bool.false_eq_true, if_false]
    rw [ih h]
    · cases point
      · simp
      · simp only [if_true, List.length_cons, List.isEmpty_cons, Bool.not_false, Bool.or_true,
          Bool.true_or]
        congr 1
        omega
    · intro hp
      have hlen := hpoint hp
      rw [List.length_cons] at hlen
      simp only [hp, if_true]
      omega
    · intro hp
      simp [hp]

def digits (d : Decimal) : List Char :=
  if d.scale = 0 then natText (d.mantissa / 10 ^ d.scale)
  else natText (d.mantissa / 10 ^ d.scale) ++ '.' :: padded d.scale (d.mantissa % 10 ^ d.scale)

theorem chars_eq (d : Decimal) : d.chars = Binary.signText d.negative ++ d.digits := rfl

theorem digits_eq_cons (d : Decimal) : ∃ c r, d.digits = c :: r ∧ isDigit c = true := by
  obtain ⟨c, r, hcons, hdigit⟩ := natText_eq_cons (d.mantissa / 10 ^ d.scale)
  rw [digits, hcons]
  by_cases hs : d.scale = 0
  · exact ⟨c, r, if_pos hs, hdigit⟩
  · exact ⟨c, _, if_neg hs, hdigit⟩

theorem readFrom_digits_self (d : Decimal) :
    readFrom false false 0 0 d.digits = some (d.mantissa, d.scale) := by
  obtain ⟨c, r, hcons, -⟩ := natText_eq_cons (d.mantissa / 10 ^ d.scale)
  have hne : (natText (d.mantissa / 10 ^ d.scale)).isEmpty = false := by simp [hcons]
  have hwhole : d.mantissa / 10 ^ d.scale < limit :=
    Nat.lt_of_le_of_lt (Nat.div_le_self _ _) d.mantissa_lt
  have hread : ∀ rest, readFrom false false 0 0 (natText (d.mantissa / 10 ^ d.scale) ++ rest) =
      readFrom true false (d.mantissa / 10 ^ d.scale) 0 rest := by
    intro rest
    have hdigits := ofDigitsFrom_natText 0 (d.mantissa / 10 ^ d.scale)
    rw [Nat.zero_mul, Nat.zero_add] at hdigits
    rw [readFrom_digits rest hdigits hwhole (by simp) fun _ => rfl]
    simp [hne]
  rw [digits]
  by_cases hs : d.scale = 0
  · have hall := hread []
    rw [List.append_nil] at hall
    rw [if_pos hs, hall]
    simp [readFrom, hs]
  · have hlt : d.mantissa % 10 ^ d.scale < 10 ^ d.scale := Nat.mod_lt _ (Nat.pow_pos (by decide))
    have hpos : 0 < d.scale := Nat.pos_of_ne_zero hs
    have hfraction := ofDigitsFrom_padded (d.mantissa / 10 ^ d.scale) hpos hlt
    rw [Nat.div_add_mod'] at hfraction
    have hlen := length_padded hpos hlt
    have hroom : 0 + (padded d.scale (d.mantissa % 10 ^ d.scale)).length ≤ maxScale := by
      rw [hlen, Nat.zero_add]
      exact d.scale_le
    have hbehind : ∀ started, readFrom started true (d.mantissa / 10 ^ d.scale) 0
        (padded d.scale (d.mantissa % 10 ^ d.scale) ++ []) = _ := fun started =>
      readFrom_digits [] hfraction d.mantissa_lt (fun _ => hroom) (by simp)
    have hpoint : digit? 10 '.' = none := by decide
    rw [if_neg hs, hread, readFrom]
    simp only [hpoint, Bool.false_and, Bool.false_eq_true, if_false, and_self, if_true]
    rw [← List.append_nil (padded _ _), hbehind]
    simp [readFrom, hlen]

/-- A decimal number is read back from its text, apart from the sign of a zero. -/
theorem parse_text (d : Decimal) : parse d.text.toList = some d.reread := by
  obtain ⟨c, r, hcons, hdigit⟩ := d.digits_eq_cons
  have hread := d.readFrom_digits_self
  have hplain : readPlain d.chars = some d.reread := by
    rw [chars_eq]
    cases hneg : d.negative with
    | true =>
      simp only [Binary.signText, if_true, List.singleton_append, readPlain, hread,
        Option.bind_some]
      rw [← hneg, ofRead?_eq]
    | false =>
      have hplus : c ≠ '+' := by
        rintro rfl
        exact Bool.noConfusion hdigit
      have hminus : c ≠ '-' := by
        rintro rfl
        exact Bool.noConfusion hdigit
      simp only [Binary.signText, Bool.false_eq_true, if_false, List.nil_append, hcons]
      rw [readPlain, ← hcons, hread, Option.bind_some, ← hneg]
      · exact ofRead?_eq d
      all_goals simp_all
  rw [text, String.toList_ofList, parse, hplain]
  rfl

/-- Only a zero with a sign changes its text on the way. -/
theorem text_reread (d : Decimal) : d.reread.text = d.text ↔ ¬ d.NegativeZero := by
  have hchars : d.reread.text = d.text ↔
      Binary.signText d.reread.negative = Binary.signText d.negative := by
    rw [text, text, String.ofList_inj, chars_eq, chars_eq]
    exact List.append_left_inj d.digits
  rw [hchars]
  cases hneg : d.negative <;> by_cases hm : d.mantissa = 0 <;>
    simp [reread, NegativeZero, Binary.signText, hneg, hm]

end Outline.Decimal

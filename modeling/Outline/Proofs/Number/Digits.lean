import Mathlib.Tactic.Ring
import Mathlib.Data.Nat.Init
import Outline.Number.Integer
import Outline.Outcome
import Outline.Text.Blank

/-!
# Digits read back

The digits of a number, behind other digits, add it to what those stand for. From this follows
that integers are read back from their texts, within the range of their kind.
-/

namespace Outline

namespace Number

/-- Each digit takes what was read before one place further. -/
theorem ofDigitsFrom_natText (m n : Nat) :
    ofDigitsFrom 10 m (natText n) = some (m * 10 ^ (natText n).length + n) := by
  induction n using Nat.strong_induction_on generalizing m with
  | _ n ih =>
    rw [natText]
    by_cases hn : n < 10
    · rw [if_pos hn]
      simp only [ofDigitsFrom, digit?_ten_digitChar hn, Option.bind_some, List.length_singleton,
        Option.some.injEq]
      omega
    · rw [if_neg hn, ofDigitsFrom_append, ih (n / 10) (by omega)]
      simp only [ofDigitsFrom, digit?_ten_digitChar (show n % 10 < 10 by omega), Option.bind_some,
        List.length_append, List.length_singleton, Option.some.injEq, pow_succ]
      rw [← mul_assoc]
      omega

theorem natText_eq_cons (n : Nat) : ∃ c r, natText n = c :: r ∧ isDigit c = true := by
  induction n using Nat.strong_induction_on with
  | _ n ih =>
    rw [natText]
    by_cases hn : n < 10
    · exact ⟨digitChar n, [], by rw [if_pos hn], isDigit_digitChar hn⟩
    · obtain ⟨c, r, hc, hd⟩ := ih (n / 10) (by omega)
      exact ⟨c, r ++ [digitChar (n % 10)], by rw [if_neg hn, hc]; rfl, hd⟩

theorem isDigit_of_mem_natText {n : Nat} : ∀ c ∈ natText n, isDigit c = true := by
  induction n using Nat.strong_induction_on with
  | _ n ih =>
    intro c hc
    rw [natText] at hc
    split at hc
    · rename_i hn
      rw [List.mem_singleton.mp hc]
      exact isDigit_digitChar hn
    · rcases List.mem_append.mp hc with hc | hc
      · exact ih (n / 10) (by omega) c hc
      · rw [List.mem_singleton.mp hc]
        exact isDigit_digitChar (by omega)

theorem isBlank_of_isDigit {c : Char} (h : isDigit c = true) : Text.isBlank c = false := by
  simp only [isDigit, Bool.and_eq_true, decide_eq_true_eq, Char.le_def, UInt32.le_iff_toNat_le] at h
  have hlo : 48 ≤ c.toNat := h.1
  have hhi : c.toNat ≤ 57 := h.2
  simp only [Text.isBlank, Bool.or_eq_false_iff, Bool.and_eq_false_iff, beq_eq_false_iff_ne,
    decide_eq_false_iff_not]
  omega

theorem isBlank_of_mem_intText {n : Int} : ∀ c ∈ intText n, Text.isBlank c = false := by
  have hdigits : ∀ c ∈ natText n.natAbs, Text.isBlank c = false := fun c hc =>
    isBlank_of_isDigit (isDigit_of_mem_natText c hc)
  intro c hc
  rw [intText] at hc
  split at hc
  · rcases List.mem_cons.mp hc with rfl | hc
    · rfl
    · exact hdigits c hc
  · exact hdigits c hc

theorem ofDigitsFrom_replicate_zero (m w : Nat) :
    ofDigitsFrom 10 m (List.replicate w '0') = some (m * 10 ^ w) := by
  induction w generalizing m with
  | zero => simp [ofDigitsFrom]
  | succ w ih =>
    have hzero : digit? 10 '0' = some 0 := by decide
    rw [List.replicate_succ, ofDigitsFrom, hzero, Option.bind_some, ih, pow_succ]
    congr 1
    rw [add_zero, mul_comm 10 m, mul_assoc, mul_comm 10]

theorem length_natText_le {n w : Nat} (hw : 0 < w) (h : n < 10 ^ w) : (natText n).length ≤ w := by
  induction w generalizing n with
  | zero => exact absurd hw (Nat.lt_irrefl 0)
  | succ w ih =>
    rw [natText]
    by_cases hn : n < 10
    · simp [hn]
    · have hw' : 0 < w := by
        rcases Nat.eq_zero_or_pos w with rfl | hpos
        · exact absurd h hn
        · exact hpos
      have hlen := ih hw' (n := n / 10) (by rw [pow_succ] at h; omega)
      rw [if_neg hn, List.length_append, List.length_singleton]
      omega

theorem length_padded {n w : Nat} (hw : 0 < w) (h : n < 10 ^ w) : (padded w n).length = w := by
  have hle := length_natText_le hw h
  rw [padded, List.length_append, List.length_replicate]
  omega

theorem ofDigitsFrom_padded {n w : Nat} (m : Nat) (hw : 0 < w) (h : n < 10 ^ w) :
    ofDigitsFrom 10 m (padded w n) = some (m * 10 ^ w + n) := by
  have hle := length_natText_le hw h
  rw [padded, ofDigitsFrom_append, ofDigitsFrom_replicate_zero, Option.bind_some,
    ofDigitsFrom_natText, mul_assoc, ← pow_add, Nat.sub_add_cancel hle]

theorem isDigit_of_mem_padded {n w : Nat} : ∀ c ∈ padded w n, isDigit c = true := by
  intro c hc
  rcases List.mem_append.mp hc with hc | hc
  · rw [List.eq_of_mem_replicate hc]
    rfl
  · exact isDigit_of_mem_natText c hc

theorem foldl_digit (m : Nat) (s : List Char) :
    s.foldl (fun n c => 10 * n + (digit? 10 c).getD 0) m = m * 10 ^ s.length + valueOf s := by
  induction s generalizing m with
  | nil => simp [valueOf]
  | cons c s ih =>
    rw [valueOf, List.foldl_cons, List.foldl_cons, ih, ih, List.length_cons, pow_succ]
    ring

theorem valueOf_append (s t : List Char) :
    valueOf (s ++ t) = valueOf s * 10 ^ t.length + valueOf t := by
  rw [valueOf, List.foldl_append, foldl_digit]
  rfl

theorem digit?_lt {radix d : Nat} {c : Char} (h : digit? radix c = some d) : d < radix := by
  simp only [digit?, Option.ite_none_right_eq_some, Option.some.injEq] at h
  exact h.2 ▸ h.1

theorem valueOf_lt (s : List Char) : valueOf s < 10 ^ s.length := by
  induction s with
  | nil => decide
  | cons c s ih =>
    have hcons := valueOf_append [c] s
    have hdigit : valueOf [c] ≤ 9 := by
      cases hd : digit? 10 c with
      | none => simp [valueOf, hd]
      | some d =>
        have hlt := digit?_lt hd
        simp only [valueOf, List.foldl_cons, List.foldl_nil, hd, Option.getD_some]
        omega
    have hmul := Nat.mul_le_mul_right (10 ^ s.length) hdigit
    rw [List.singleton_append] at hcons
    rw [hcons, List.length_cons, pow_succ]
    omega

theorem valueOf_replicate_zero (w : Nat) : valueOf (List.replicate w '0') = 0 := by
  induction w with
  | zero => rfl
  | succ w ih =>
    rw [List.replicate_succ', valueOf_append, ih]
    rfl

theorem valueOf_natText (n : Nat) : valueOf (natText n) = n := by
  induction n using Nat.strong_induction_on with
  | _ n ih =>
    have hdigit : ∀ d < 10, valueOf [digitChar d] = d := fun d hd => by
      simp [valueOf, digit?_ten_digitChar hd]
    rw [natText]
    by_cases hn : n < 10
    · rw [if_pos hn, hdigit n hn]
    · rw [if_neg hn, valueOf_append, ih (n / 10) (by omega), hdigit (n % 10) (by omega),
        List.length_singleton]
      omega

theorem valueOf_padded (w n : Nat) : valueOf (padded w n) = n := by
  rw [padded, valueOf_append, valueOf_replicate_zero, valueOf_natText, Nat.zero_mul, Nat.zero_add]

/-- The first digits of a fraction, with zeros behind it, are the whole part of as many places. -/
theorem valueOf_take_append_zeros (ds : List Char) (w : Nat) :
    valueOf ((ds ++ List.replicate w '0').take w) = valueOf ds * 10 ^ w / 10 ^ ds.length := by
  rcases Nat.le_total ds.length w with hle | hle
  · have htake :
        (ds ++ List.replicate w '0').take w = ds ++ List.replicate (w - ds.length) '0' := by
      rw [List.take_append, List.take_of_length_le hle, List.take_replicate,
        Nat.min_eq_left (Nat.sub_le w ds.length)]
    have hpow : 10 ^ w = 10 ^ (w - ds.length) * 10 ^ ds.length := by
      rw [← pow_add, Nat.sub_add_cancel hle]
    rw [htake, valueOf_append, valueOf_replicate_zero, List.length_replicate, add_zero, hpow,
      ← mul_assoc, Nat.mul_div_cancel _ (Nat.pow_pos (by decide))]
  · have hsplit := valueOf_append (ds.take w) (ds.drop w)
    have hlt := valueOf_lt (ds.drop w)
    have hpow : 10 ^ ds.length = 10 ^ (ds.drop w).length * 10 ^ w := by
      rw [List.length_drop, ← pow_add, Nat.sub_add_cancel hle]
    rw [List.take_append_drop] at hsplit
    rw [List.take_append_of_le_length hle, hpow,
      Nat.mul_div_mul_right _ _ (Nat.pow_pos (by decide)), hsplit, mul_comm,
      Nat.mul_add_div (Nat.pow_pos (by decide)), Nat.div_eq_of_lt hlt, add_zero]

/-- Reading more digits never makes a number smaller. -/
theorem le_of_ofDigitsFrom {radix m v : Nat} {s : List Char} (hr : 0 < radix)
    (h : ofDigitsFrom radix m s = some v) : m ≤ v := by
  induction s generalizing m with
  | nil => exact Nat.le_of_eq (Option.some.inj h)
  | cons c s ih =>
    rw [ofDigitsFrom, Option.bind_eq_some_iff] at h
    obtain ⟨d, -, h⟩ := h
    have hle := ih h
    have hmul : m ≤ radix * m := Nat.le_mul_of_pos_left m hr
    omega

end Number

namespace Integer

open Number

/-- Digits are accumulated up to the number they stand for, if it is in range with its sign. -/
theorem accumulate_eq {sign lo hi : Int} {m v : Nat} {s : List Char}
    (h : ofDigitsFrom 10 m s = some v) (hrange : ∀ n ≤ v, lo ≤ sign * n ∧ sign * n ≤ hi) :
    accumulate 10 sign lo hi (sign * m) s = .ok (sign * v) := by
  induction s generalizing m with
  | nil =>
    obtain rfl := Option.some.inj h
    rfl
  | cons c s ih =>
    rw [ofDigitsFrom, Option.bind_eq_some_iff] at h
    obtain ⟨d, hd, h⟩ := h
    have hle := le_of_ofDigitsFrom (by decide) h
    obtain ⟨hlo, hhi⟩ := hrange (10 * m + d) hle
    have hnext : (10 : Nat) * (sign * m) + sign * d = sign * ((10 * m + d : Nat) : Int) := by
      push_cast
      ring
    rw [accumulate, hd]
    simp only [hnext]
    rw [if_neg (by omega), if_neg (by omega)]
    exact ih h

theorem read_of_isDigit {radix : Nat} {lo hi : Int} {c : Char} {r : List Char}
    (hc : isDigit c = true) :
    Integer.read radix lo hi (c :: r) = accumulate radix 1 lo hi 0 (c :: r) := by
  have hplus : c ≠ '+' := by
    rintro rfl
    exact Bool.noConfusion hc
  have hminus : c ≠ '-' := by
    rintro rfl
    exact Bool.noConfusion hc
  unfold Integer.read
  split <;> simp_all

theorem bounds_of_accumulate {radix : Nat} {sign lo hi m n : Int} {s : List Char}
    (hm : lo ≤ m ∧ m ≤ hi) (h : accumulate radix sign lo hi m s = .ok n) : lo ≤ n ∧ n ≤ hi := by
  induction s generalizing m with
  | nil =>
    cases h
    exact hm
  | cons c s ih =>
    rw [accumulate] at h
    cases hd : digit? radix c with
    | none =>
      rw [hd] at h
      cases h
    | some d =>
      simp only [hd] at h
      split at h
      · cases h
      · split at h
        · cases h
        · rename_i hlo hhi
          exact ih ⟨Int.not_lt.mp hlo, Int.not_lt.mp hhi⟩ h

theorem eq_of_accumulate {sign lo hi n : Int} {m v : Nat} {s : List Char}
    (hd : ofDigitsFrom 10 m s = some v) (h : accumulate 10 sign lo hi (sign * m) s = .ok n) :
    n = sign * v := by
  induction s generalizing m with
  | nil =>
    obtain rfl := Option.some.inj hd
    exact (Except.ok.inj h).symm
  | cons c s ih =>
    rw [ofDigitsFrom, Option.bind_eq_some_iff] at hd
    obtain ⟨d, hc, hd⟩ := hd
    have hnext : (10 : Nat) * (sign * m) + sign * d = sign * ((10 * m + d : Nat) : Int) := by
      push_cast
      ring
    rw [accumulate, hc] at h
    simp only [hnext] at h
    split at h
    · cases h
    · split at h
      · cases h
      · exact ih hd h

/-- Digits are taken exactly if the number they stand for is in range with its sign. -/
theorem accumulate_eq_ok_iff {sign lo hi n : Int} (hlo : lo ≤ 0) (hhi : 0 ≤ hi)
    (hsign : sign = 1 ∨ sign = -1) {v : Nat} {s : List Char} (hd : ofDigitsFrom 10 0 s = some v) :
    accumulate 10 sign lo hi 0 s = .ok n ↔ n = sign * v ∧ lo ≤ n ∧ n ≤ hi := by
  have hzero : sign * (0 : Nat) = 0 := mul_zero sign
  constructor
  · intro h
    exact ⟨eq_of_accumulate hd (hzero ▸ h), bounds_of_accumulate ⟨hlo, hhi⟩ h⟩
  · rintro ⟨rfl, hn⟩
    have hrun : accumulate 10 sign lo hi (sign * (0 : Nat)) s = .ok (sign * v) :=
      accumulate_eq hd fun k hk => by rcases hsign with rfl | rfl <;> omega
    rwa [hzero] at hrun

/-- The text of an integer is read exactly if the integer is in range, and as that integer. -/
theorem read_intText_iff {lo hi m n : Int} (hlo : lo ≤ 0) (hhi : 0 ≤ hi) :
    Integer.read 10 lo hi (intText n) = .ok m ↔ m = n ∧ lo ≤ n ∧ n ≤ hi := by
  obtain ⟨c, r, hcons, hdigit⟩ := natText_eq_cons n.natAbs
  have hdigits := ofDigitsFrom_natText 0 n.natAbs
  rw [Nat.zero_mul, Nat.zero_add] at hdigits
  rw [intText]
  by_cases hneg : n < 0
  · have hiff := accumulate_eq_ok_iff (n := m) hlo hhi (.inr rfl) hdigits
    rw [if_pos hneg, hcons, Integer.read, ← hcons]
    · split
      · rw [hiff]
        omega
      · simp only [reduceCtorEq, false_iff]
        omega
    · simp
  · have hiff := accumulate_eq_ok_iff (n := m) hlo hhi (.inl rfl) hdigits
    rw [if_neg hneg, hcons, read_of_isDigit hdigit, ← hcons, hiff]
    omega

theorem Kind.min_le_zero (k : Kind) : k.min ≤ 0 := by cases k <;> decide
theorem Kind.zero_le_max (k : Kind) : 0 ≤ k.max := by cases k <;> decide

theorem read_intText {k : Kind} {n : Int} (h : k.Holds n) : k.read (intText n) = .ok n :=
  (read_intText_iff k.min_le_zero k.zero_le_max).mpr ⟨rfl, h⟩

theorem holds_of_accumulate {k : Kind} {radix : Nat} {sign m n : Int} {s : List Char}
    (hm : k.Holds m) (h : accumulate radix sign k.min k.max m s = .ok n) : k.Holds n :=
  bounds_of_accumulate hm h

theorem holds_of_read {k : Kind} {n : Int} {s : List Char} (h : k.read s = .ok n) :
    k.Holds n := by
  have hzero : k.Holds 0 := by cases k <;> decide
  unfold Kind.read Integer.read at h
  split at h
  · cases h
  · cases h
  · cases h
  · exact holds_of_accumulate hzero h
  · split at h
    · exact holds_of_accumulate hzero h
    · cases h
  · exact holds_of_accumulate hzero h

theorem kind_of_parse {k : Kind} {s : List Char} {i : Integer} (h : parse k s = .ok i) :
    i.kind = k := by
  obtain ⟨n, -, h⟩ := bind_eq_ok.mp h
  by_cases hn : k.Holds n
  · simp only [ofInt?, dif_pos hn] at h
    cases h
    rfl
  · simp only [ofInt?, dif_neg hn] at h
    cases h

theorem parse_text (i : Integer) : parse i.kind i.text.toList = .ok i := by
  rw [text, String.toList_ofList, parse, read_intText i.inRange]
  simp only [bind, Except.bind, ofInt?_val]
  rfl

end Integer
end Outline

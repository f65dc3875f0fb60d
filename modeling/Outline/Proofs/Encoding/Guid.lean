import Mathlib.Tactic.Common
import Mathlib.Tactic.Ring
import Outline.Encoding.Guid

/-!
# Identifiers read back

The hyphens go between the digits and out of them again, and thirty-two digits have room for
every identifier.
-/

namespace Outline.Guid

open Number

theorem length_hexText (w n : Nat) : (hexText w n).length = w := by
  induction w generalizing n with
  | zero => rfl
  | succ w ih => rw [hexText, List.length_append, ih, List.length_singleton]

theorem ofDigitsFrom_hexText (m w n : Nat) :
    ofDigitsFrom 16 m (hexText w n) = some (m * 16 ^ w + n % 16 ^ w) := by
  induction w generalizing n with
  | zero => simp [hexText, ofDigitsFrom, Nat.mod_one]
  | succ w ih =>
    have hsplit : n % 16 ^ (w + 1) = 16 * (n / 16 % 16 ^ w) + n % 16 := by
      rw [Nat.pow_succ, Nat.mul_comm, Nat.mod_mul]
      omega
    rw [hexText, ofDigitsFrom_append, ih, Option.bind_some, ofDigitsFrom,
      digit?_digitChar (Nat.mod_lt _ (by decide)), Option.bind_some, ofDigitsFrom, hsplit]
    congr 1
    ring

theorem ofHex?_hexText (g : Guid) : ofHex? (hexText 32 g.val) = some g := by
  have hlt : g.val < 16 ^ 32 := g.val_lt
  have hcons : (hexText 32 g.val).isEmpty = false := by
    rw [List.isEmpty_eq_false_iff, ← List.length_pos_iff, length_hexText]
    decide
  have hdigits : ofDigits? 16 (hexText 32 g.val) = some g.val := by
    rw [ofDigits?, hcons, ofDigitsFrom_hexText, Nat.zero_mul, Nat.zero_add, Nat.mod_eq_of_lt hlt]
    rfl
  simp only [ofHex?, hdigits, Option.bind_eq_bind, Option.bind_some, dif_pos g.val_lt]

theorem length_hyphenate {ns : List Nat} {s : List Char} (hs : s.length = ns.sum) (h : ns ≠ []) :
    (hyphenate ns s).length + 1 = ns.sum + ns.length := by
  induction ns generalizing s with
  | nil => exact absurd rfl h
  | cons n ns ih =>
    cases ns with
    | nil => simp_all [hyphenate]
    | cons m ns =>
      have hrest := ih (s := s.drop n) (by simp at hs ⊢; omega) (by simp)
      simp only [List.sum_cons, List.length_cons] at hs hrest ⊢
      rw [hyphenate, List.length_append, List.length_cons, List.length_take]
      · omega
      · simp

theorem dehyphenate_hyphenate {ns : List Nat} {s : List Char} (hs : s.length = ns.sum)
    (h : ns ≠ []) : dehyphenate ns (hyphenate ns s) = some s := by
  induction ns generalizing s with
  | nil => exact absurd rfl h
  | cons n ns ih =>
    cases ns with
    | nil =>
      obtain rfl : s.length = n := by simpa using hs
      simp [hyphenate, dehyphenate]
    | cons m ns =>
      have hn : n ≤ s.length := by
        rw [hs, List.sum_cons]
        exact Nat.le_add_right _ _
      have hrest := ih (s := s.drop n) (by simp at hs ⊢; omega) (by simp)
      have htake : (s.take n).length = n := by rw [List.length_take, Nat.min_eq_left hn]
      rw [hyphenate, dehyphenate, List.drop_append_of_le_length htake.ge, List.drop_of_length_le
        htake.le, List.nil_append, List.take_append_of_le_length htake.ge, List.take_of_length_le
        htake.le]
      · simp only [hrest, Option.map_some, List.take_append_drop]
      · simp
      · simp

theorem parse_text (g : Guid) : parse g.text.toList = some g := by
  have hlen : (hexText 32 g.val).length = groups.sum := length_hexText 32 g.val
  have hne : groups ≠ [] := by decide
  have hchars : g.chars.length = 36 := Nat.succ.inj (length_hyphenate hlen hne)
  rw [text, String.toList_ofList, parse, hchars]
  simp only [readHyphenated, chars, dehyphenate_hyphenate hlen hne, Option.bind_some,
    ofHex?_hexText]

end Outline.Guid

import Mathlib.Tactic.Common
import Outline.Text.Quote
import Outline.Text.Quoted

/-!
# Written texts read back

Both kinds of literals are read back by their readers, whatever follows the closing quote. A
text that is written bare has no character that would end it or give it another meaning.
-/

namespace Outline.Text

/-! ## Single-line literals -/

theorem readQuoted_cons {q c : Char} {r : List Char} (hq : c ≠ q) (hs : c ≠ '\\')
    (hb : isBreak c = false) : readQuoted q (c :: r) = (readQuoted q r).prepend [c] := by
  rw [readQuoted, if_neg hq, if_neg hs, hb]
  simp

theorem readQuoted_escape {q : Char} {r r' t : List Char} (hq : q ≠ '\\')
    (h : readEscape r = .ok (t, r')) :
    readQuoted q ('\\' :: r) = (readQuoted q r').prepend t := by
  rw [readQuoted, if_neg (Ne.symm hq), if_pos rfl]
  split
  · rename_i e he
    rw [h] at he
    cases he
  · rename_i t' r'' he
    rw [h] at he
    cases he
    rfl

theorem readQuoted_escapeChar (c : Char) (r : List Char) :
    readQuoted '"' (escapeChar c ++ r) = (readQuoted '"' r).prepend [c] := by
  have hq : ('"' : Char) ≠ '\\' := by decide
  unfold escapeChar
  by_cases h₁ : c = '\\'
  · subst h₁
    exact readQuoted_escape hq rfl
  by_cases h₂ : c = '"'
  · subst h₂
    exact readQuoted_escape hq rfl
  by_cases h₃ : c = '\n'
  · subst h₃
    exact readQuoted_escape hq rfl
  by_cases h₄ : c = '\r'
  · subst h₄
    refine readQuoted_escape hq ?_
    have hcode : code? ['0', '0', '0', 'D'] = some '\r' := by decide
    simp [readEscape, escape?, hcode]
  simp only [h₁, h₂, h₃, h₄, if_false, List.singleton_append]
  exact readQuoted_cons h₂ h₁ (by simp [isBreak, h₃, h₄])

theorem readQuoted_flatMap (s r : List Char) :
    readQuoted '"' (s.flatMap escapeChar ++ '"' :: r) = .ok (s, r) := by
  induction s with
  | nil =>
    rw [List.flatMap_nil, List.nil_append, readQuoted]
    simp
  | cons c s ih =>
    rw [List.flatMap_cons, List.append_assoc, readQuoted_escapeChar, ih]
    rfl

/-! ## Verbatim literals -/

theorem readVerbatim_quote (r : List Char) (h : r.head? ≠ some '"') :
    readVerbatim ('"' :: r) = .ok ([], r) := by
  cases r with
  | nil => rfl
  | cons c r =>
    have hc : c ≠ '"' := by simpa using h
    rw [readVerbatim]
    intro s hs
    cases hs
    exact hc rfl

theorem readVerbatim_cons {c : Char} (r : List Char) (hq : c ≠ '"') (hb : isBreak c = false) :
    readVerbatim (c :: r) = (readVerbatim r).prepend [c] := by
  have hn : c ≠ '\n' := fun h => by simp [isBreak, h] at hb
  have hr : c ≠ '\r' := fun h => by simp [isBreak, h] at hb
  rw [readVerbatim]
  all_goals simp_all

/-- A text is read back verbatim if its line breaks are canonical already. -/
theorem readVerbatim_doubleQuotes {s : List Char} (hs : canonicalBreaks s = true) (r : List Char)
    (hr : r.head? ≠ some '"') :
    readVerbatim (doubleQuotes s ++ '"' :: r) = .ok (s, r) := by
  fun_induction canonicalBreaks s with
  | case1 => exact readVerbatim_quote r hr
  | case2 s ih =>
    have htail := ih hs
    simp only [doubleQuotes] at htail
    simp [doubleQuotes, readVerbatim, htail, crlf]
  | case3 c s hne ih =>
    obtain ⟨hc, hs⟩ := Bool.and_eq_true_iff.mp hs
    have htail := ih hs
    simp only [doubleQuotes] at htail
    by_cases hq : c = '"'
    · simp [doubleQuotes, hq, readVerbatim, htail]
    · rw [doubleQuotes, List.flatMap_cons, if_neg hq, List.singleton_append, List.cons_append,
        readVerbatim_cons _ hq (by simpa using hc), htail]
      rfl

/-! ## Bare texts -/

/-- What a text is like that stands without quotes. -/
structure Bare (value : Bool) (s : List Char) : Prop where
  plain : ∀ c ∈ s, c ≠ ':' ∧ c ≠ '"' ∧ isBreak c = false
  head : ∀ c ∈ s.head?, isBlank c = false
  last : ∀ c ∈ s.getLast?, isBlank c = false
  start : startsSpecial s = false
  apostrophe : value = true → '\'' ∉ s

theorem bare_of_needsQuotes {value : Bool} {s : List Char} (h : needsQuotes value s = false) :
    Bare value s := by
  simp only [needsQuotes, Bool.or_eq_false_iff, Bool.and_eq_false_iff, List.any_eq_false,
    Option.any_eq_false] at h
  obtain ⟨⟨⟨⟨hplain, hhead⟩, hlast⟩, hstart⟩, hap⟩ := h
  refine ⟨fun c hc => ?_, fun c hc => ?_, fun c hc => ?_, hstart, fun hv => ?_⟩
  · simpa [not_or, and_assoc] using hplain c hc
  · simpa using hhead c hc
  · simpa using hlast c hc
  · rcases hap with h | h
    · rw [hv] at h
      cases h
    · simpa using h

theorem quote_cases (value : Bool) (s : List Char) :
    (quote value s = verbatim s ∧ canonicalBreaks s = true) ∨ quote value s = quoted s ∨
      (quote value s = s ∧ Bare value s) := by
  unfold quote
  split
  · rename_i h
    exact .inl ⟨rfl, (Bool.and_eq_true_iff.mp h).2⟩
  · split
    · exact .inr (.inl rfl)
    · rename_i h
      exact .inr (.inr ⟨rfl, bare_of_needsQuotes (by simpa using h)⟩)

theorem length_le_flatMap {g : Char → List Char} (hg : ∀ c, g c ≠ []) (s : List Char) :
    s.length ≤ (s.flatMap g).length := by
  induction s with
  | nil => exact Nat.zero_le _
  | cons c s ih =>
    have hone : 0 < (g c).length := List.length_pos_iff.mpr (hg c)
    rw [List.flatMap_cons, List.length_append, List.length_cons]
    omega

theorem length_le_quote (value : Bool) (s : List Char) : s.length ≤ (quote value s).length := by
  rcases quote_cases value s with ⟨h, -⟩ | h | ⟨h, -⟩
  · have hs : s.length ≤ (doubleQuotes s).length := by
      refine length_le_flatMap (fun c => ?_) s
      split <;> simp
    simp only [h, verbatim, List.cons_append, List.length_cons, List.length_append]
    omega
  · have hs : s.length ≤ (s.flatMap escapeChar).length := by
      refine length_le_flatMap (fun c => ?_) s
      unfold escapeChar
      repeat' split
      all_goals simp
    simp only [h, quoted, List.cons_append, List.length_cons, List.length_append]
    omega
  · exact Nat.le_of_eq (congrArg _ h.symm)

end Outline.Text

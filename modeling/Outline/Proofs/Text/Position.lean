import Mathlib.Data.List.Induction
import Mathlib.Data.List.TakeWhile
import Mathlib.Tactic.Common
import Outline.Text.Position

/-!
# Counting lines and columns

The place behind a text can be counted while the text is read, one character after the other. It is
told by the line feeds of the text, and by its last line (`Position.behind_after`).
-/

namespace Outline

/-- Every text is split behind its last line feed. -/
theorem exists_last_line (s : List Char) :
    ∃ front last, s = front ++ last ∧ '\n' ∉ last ∧ (front = [] ∨ front.getLast? = some '\n') := by
  induction s using List.reverseRecOn with
  | nil => exact ⟨[], [], rfl, List.not_mem_nil, .inl rfl⟩
  | append_singleton s c ih =>
    by_cases hc : c = '\n'
    · exact ⟨s ++ [c], [], (List.append_nil _).symm, List.not_mem_nil, .inr (by simp [hc])⟩
    · obtain ⟨front, last, rfl, hlast, hfront⟩ := ih
      exact ⟨front, last ++ [c], List.append_assoc _ _ _, by simp [hlast, Ne.symm hc], hfront⟩

namespace Position

/-- The place behind one more character. -/
def advance (p : Position) (c : Char) : Position :=
  if c = '\n' then ⟨p.line + 1, 1⟩ else ⟨p.line, p.column + 1⟩

theorem after_concat (s : List Char) (c : Char) : after (s ++ [c]) = (after s).advance c := by
  by_cases hc : c = '\n'
  · simp [hc, advance, after]
  · simp [hc, advance, after]

theorem after_append (s t : List Char) : after (s ++ t) = t.foldl advance (after s) := by
  induction t generalizing s with
  | nil => rw [List.append_nil, List.foldl_nil]
  | cons c t ih => rw [← List.singleton_append, ← List.append_assoc, ih, after_concat]; rfl

def lower (n : Nat) (p : Position) : Position := { p with line := p.line + n }

theorem advance_lower (n : Nat) (p : Position) (c : Char) :
    (p.lower n).advance c = (p.advance c).lower n := by
  unfold advance lower
  split
  · rw [Nat.add_right_comm]
  · rfl

/-- Behind a finished line, places are counted as in a text of its own, but further down. -/
theorem after_append_lower {s : List Char} (h : s = [] ∨ s.getLast? = some '\n')
    (t : List Char) : after (s ++ t) = (after t).lower (s.count '\n') := by
  have hstart : after s = (⟨1, 1⟩ : Position).lower (s.count '\n') := by
    rcases h with rfl | h
    · rfl
    · obtain ⟨front, rfl⟩ := List.getLast?_eq_some_iff.mp h
      simp [lower, Nat.add_left_comm]
  have hlower : ∀ p : Position, t.foldl advance (p.lower (s.count '\n')) =
      (t.foldl advance p).lower (s.count '\n') := by
    induction t with
    | nil => exact fun p => rfl
    | cons c t ih => exact fun p => by rw [List.foldl_cons, advance_lower, ih, List.foldl_cons]
  rw [after_append, hstart, hlower, ← after_nil, ← after_append, List.nil_append]

/-- The line is one more than the line feeds in front, and the column one more than the characters
behind the last of them. -/
theorem after_split {front last : List Char} (hlast : '\n' ∉ last)
    (hfront : front = [] ∨ front.getLast? = some '\n') :
    after (front ++ last) = ⟨front.count '\n' + 1, last.length + 1⟩ := by
  have hline : (last.reverse.takeWhile (· ≠ '\n')) = last.reverse :=
    List.takeWhile_eq_self_iff.mpr fun c hc => by
      have hne : c ≠ '\n' := fun h => hlast (h ▸ List.mem_reverse.mp hc)
      simpa using hne
  rw [after_append_lower hfront, after, List.count_eq_zero_of_not_mem hlast, hline, lower,
    List.length_reverse, Nat.zero_add, Nat.add_comm]

/-- The line and column behind the text `s`: what two counters come to that are advanced over its
characters, one more than its line feeds, and one more than the characters of its last line. -/
structure Behind (s : List Char) (p : Position) : Prop where
  counted : p = s.foldl advance ⟨1, 1⟩
  line : p.line = 1 + s.count '\n'
  column : ∃ lines last, s = lines ++ last ∧ '\n' ∉ last ∧
    (lines = [] ∨ lines.getLast? = some '\n') ∧ p.column = 1 + last.length

theorem behind_after (s : List Char) : Behind s (after s) where
  counted := by rw [← after_nil, ← after_append, List.nil_append]
  line := Nat.add_comm _ _
  column := by
    obtain ⟨lines, last, rfl, hlast, hlines⟩ := exists_last_line s
    refine ⟨lines, last, rfl, hlast, hlines, ?_⟩
    rw [after_split hlast hlines]
    exact Nat.add_comm _ _

end Position
end Outline

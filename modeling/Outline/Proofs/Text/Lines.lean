import Mathlib.Algebra.GroupWithZero.Nat
import Mathlib.Algebra.Order.BigOperators.Group.List
import Mathlib.Data.List.Chain
import Mathlib.Data.List.DropRight
import Outline.Text.Blank
import Outline.Text.Lines

/-!
# Trimming and lines

What trimming leaves begins and ends with characters that are not blank, and lines that are
joined are found again.
-/

namespace Outline.Text

variable {s : List Char}

/-! ## Trimming -/

theorem trimEnd_isPrefix (s : List Char) : trimEnd s <+: s := by
  have h := List.dropWhile_suffix isBlank (l := s.reverse)
  rw [← List.reverse_prefix, List.reverse_reverse] at h
  exact h

theorem trimEnd_trimEnd (s : List Char) : trimEnd (trimEnd s) = trimEnd s := by
  rw [trimEnd, trimEnd, List.reverse_reverse, List.dropWhile_idempotent]

theorem trim_of_not_blank (h : ∀ c ∈ s, isBlank c = false) : trim s = s := by
  have hdrop : ∀ l : List Char, (∀ c ∈ l, isBlank c = false) → l.dropWhile isBlank = l := by
    rintro (_ | ⟨c, l⟩) hl
    · rfl
    · exact List.dropWhile_cons_of_neg (by simp [hl c (by simp)])
  rw [trim, trimStart, hdrop s h, trimEnd, hdrop s.reverse (by simpa using h), List.reverse_reverse]

theorem trim_trim (s : List Char) : trim (trim s) = trim s := by
  have hstart : trimStart (trim s) = trim s := by
    obtain ⟨rest, hrest⟩ := trimEnd_isPrefix (trimStart s)
    cases ht : trim s with
    | nil => rfl
    | cons c t =>
      -- What is left of the text starts like the text without its first blanks.
      have hcons : trimStart s = c :: (t ++ rest) := by
        rw [← hrest, ← List.cons_append, ← ht]
        rfl
      have hc : isBlank c = false := by
        have hidem : trimStart (trimStart s) = trimStart s := List.dropWhile_idempotent _ _
        rw [hcons] at hidem
        by_contra hblank
        rw [trimStart, List.dropWhile_cons_of_pos (by simpa using hblank)] at hidem
        have hle := (List.dropWhile_suffix isBlank (l := t ++ rest)).length_le
        rw [hidem] at hle
        exact Nat.not_succ_le_self _ hle
      exact List.dropWhile_cons_of_neg (by simp [hc])
  rw [trim, hstart, trim, trimEnd_trimEnd]

theorem trim_isInfix (s : List Char) : trim s <:+: s :=
  (trimEnd_isPrefix _).isInfix.trans (List.dropWhile_suffix _).isInfix

theorem trimEnd_append_blank {b : List Char} (hb : ∀ c ∈ b, isBlank c = true) (s : List Char) :
    trimEnd (s ++ b) = trimEnd s := by
  rw [trimEnd, List.reverse_append, List.dropWhile_append_of_pos fun c hc =>
    hb c (List.mem_reverse.mp hc), trimEnd]

theorem isBlank_of_mem_singleton {b : Char} (hb : isBlank b = true) :
    ∀ c ∈ [b], isBlank c = true := fun c hc => by rwa [List.mem_singleton.mp hc]

theorem isBlank_of_mem_crlf : ∀ c ∈ crlf, isBlank c = true := List.all_eq_true.mp rfl

/-- The text begins and ends with characters that are not blank. -/
structure Solid (s : List Char) : Prop where
  head : ∃ c rest, s = c :: rest ∧ isBlank c = false
  last : ∃ front c, s = front ++ [c] ∧ isBlank c = false

theorem Solid.ne_nil (h : Solid s) : s ≠ [] := by
  obtain ⟨c, rest, rfl, -⟩ := h.head
  exact List.cons_ne_nil c rest

theorem Solid.trimEnd_eq (h : Solid s) : trimEnd s = s := by
  obtain ⟨front, c, rfl, hc⟩ := h.last
  exact trimEnd_concat_of_not_blank front hc

theorem trimStart_cons_of_not_blank {c : Char} (hc : isBlank c = false) (s : List Char) :
    trimStart (c :: s) = c :: s := List.dropWhile_cons_of_neg (by simp [hc])

theorem trim_append_blank {a b : List Char} (ha : ∀ c ∈ a, isBlank c = true)
    (hb : ∀ c ∈ b, isBlank c = true) (s : List Char) : trim (a ++ (s ++ b)) = trim s := by
  rw [trim, trimStart, List.dropWhile_append_of_pos ha, List.dropWhile_append]
  split
  · rename_i h
    have hs : trimStart s = [] := List.isEmpty_iff.mp h
    have hnone : b.dropWhile isBlank = [] := List.dropWhile_eq_nil_iff.mpr hb
    rw [hnone, trim, hs]
  · rw [trimEnd_append_blank hb, ← trimStart, trim]

theorem Solid.trim_eq (h : Solid s) : trim s = s := by
  obtain ⟨c, rest, hs, hc⟩ := h.head
  have hstart : trimStart s = s := by rw [hs, trimStart_cons_of_not_blank hc]
  rw [trim, hstart, h.trimEnd_eq]

/-- A text in which nothing is left to trim at the end ends with a character that is not blank. -/
theorem exists_last_of_trimEnd (h : trimEnd s = s) (hne : s ≠ []) :
    ∃ front c, s = front ++ [c] ∧ isBlank c = false := by
  obtain ⟨c, hlast⟩ := Option.ne_none_iff_exists'.mp (mt List.getLast?_eq_none_iff.mp hne)
  obtain ⟨front, rfl⟩ := List.getLast?_eq_some_iff.mp hlast
  refine ⟨front, c, rfl, ?_⟩
  by_contra hc
  rw [trimEnd_append_blank (by simpa using hc)] at h
  have hlen := (trimEnd_isPrefix front).length_le
  rw [h, List.length_append, List.length_singleton] at hlen
  exact Nat.not_succ_le_self _ hlen

theorem solid_of_trim (h : trim s = s) (hne : s ≠ []) : Solid s := by
  have hstart : trimStart s = s := by
    have hlen := (trimEnd_isPrefix (trimStart s)).length_le
    rw [← trim, h] at hlen
    exact (List.dropWhile_suffix isBlank).eq_of_length_le hlen
  have hend : trimEnd s = s := by
    rw [trim, hstart] at h
    exact h
  constructor
  · cases s with
    | nil => exact absurd rfl hne
    | cons c rest =>
      refine ⟨c, rest, rfl, ?_⟩
      by_contra hc
      rw [trimStart, List.dropWhile_cons_of_pos (by simpa using hc)] at hstart
      have hlen := (List.dropWhile_suffix isBlank (l := rest)).length_le
      rw [hstart] at hlen
      exact Nat.not_succ_le_self _ hlen
  · exact exists_last_of_trimEnd hend hne

theorem solid_trim (h : trim s ≠ []) : Solid (trim s) := solid_of_trim (trim_trim s) h

/-! ## Ink -/

/-- The number of characters that are not blank. -/
def ink (s : List Char) : Nat := s.countP (!isBlank ·)

@[simp] theorem ink_nil : ink [] = 0 := rfl

@[simp] theorem ink_append (s t : List Char) : ink (s ++ t) = ink s + ink t :=
  List.countP_append

theorem ink_cons (c : Char) (s : List Char) : ink (c :: s) = ink [c] + ink s := ink_append [c] s

theorem ink_of_blank (h : ∀ c ∈ s, isBlank c = true) : ink s = 0 :=
  List.countP_eq_zero.mpr fun c hc => by simp [h c hc]

@[simp] theorem ink_crlf : ink crlf = 0 := by decide

theorem exists_trimStart (s : List Char) :
    ∃ a, (∀ c ∈ a, isBlank c = true) ∧ s = a ++ trimStart s :=
  ⟨s.takeWhile isBlank, fun _ hc => List.mem_takeWhile_imp hc, List.takeWhile_append_dropWhile.symm⟩

theorem exists_trimEnd (s : List Char) :
    ∃ b, (∀ c ∈ b, isBlank c = true) ∧ s = trimEnd s ++ b := by
  obtain ⟨a, ha, hs⟩ := exists_trimStart s.reverse
  refine ⟨a.reverse, fun c hc => ha c (List.mem_reverse.mp hc), ?_⟩
  rw [trimEnd, ← List.reverse_append, ← trimStart, ← hs, List.reverse_reverse]

@[simp] theorem ink_trimStart (s : List Char) : ink (trimStart s) = ink s := by
  obtain ⟨a, ha, hs⟩ := exists_trimStart s
  conv => rhs; rw [hs, ink_append, ink_of_blank ha, Nat.zero_add]

@[simp] theorem ink_trimEnd (s : List Char) : ink (trimEnd s) = ink s := by
  obtain ⟨b, hb, hs⟩ := exists_trimEnd s
  conv => rhs; rw [hs, ink_append, ink_of_blank hb, Nat.add_zero]

@[simp] theorem ink_trim (s : List Char) : ink (trim s) = ink s := by
  rw [trim, ink_trimEnd, ink_trimStart]

theorem trim_eq_nil_iff : trim s = [] ↔ ink s = 0 := by
  constructor
  · intro h
    rw [← ink_trim, h, ink_nil]
  · intro h
    by_contra hne
    obtain ⟨c, rest, hs, hc⟩ := (solid_trim hne).head
    rw [← ink_trim, hs, ink, List.countP_cons_of_pos (by simp [hc])] at h
    exact Nat.succ_ne_zero _ h

/-! ## Lines -/

theorem joinLines_cons (l : List Char) {ls : List (List Char)} (h : ls ≠ []) :
    joinLines (l :: ls) = l ++ crlf ++ joinLines ls := by
  cases ls with
  | nil => exact absurd rfl h
  | cons m ls => simp [joinLines, List.intercalate]

@[simp] theorem joinLines_singleton (l : List Char) : joinLines [l] = l := by
  simp [joinLines, List.intercalate]

theorem lines_of_not_mem (h : '\n' ∉ s) (hne : s ≠ []) : lines s = [s] := by
  have hfrom : ∀ line : List Char, line ++ s ≠ [] → linesFrom line s = [line ++ s] := by
    clear hne
    intro line hne
    induction s generalizing line with
    | nil => simpa [linesFrom] using hne
    | cons c s ih =>
      simp only [List.mem_cons, not_or] at h
      rw [linesFrom, if_neg (Ne.symm h.1), ih h.2 _ (by simp), List.append_assoc,
        List.singleton_append]
  exact hfrom [] hne

theorem lines_append_crlf {l : List Char} (h : '\n' ∉ l) (s : List Char) :
    lines (l ++ crlf ++ s) = l :: lines s := by
  have hnot : '\n' ∉ l ++ ['\r'] := by simp [h]
  have hlines := lines_append_lineFeed s hnot
  rw [dropReturn, List.getLast?_concat, if_pos rfl, List.dropLast_concat] at hlines
  rw [← hlines]
  simp [crlf]

theorem lines_flatMap_crlf {ls : List (List Char)} (h : ∀ l ∈ ls, '\n' ∉ l) (s : List Char) :
    lines (ls.flatMap (· ++ crlf) ++ s) = ls ++ lines s := by
  induction ls with
  | nil => rfl
  | cons l ls ih =>
    rw [List.flatMap_cons, List.append_assoc, lines_append_crlf (h l (by simp)),
      ih fun l hl => h l (by simp [hl]), List.cons_append]

theorem lines_joinLines {ls : List (List Char)} (h : ∀ l ∈ ls, '\n' ∉ l)
    (hlast : ∀ l ∈ ls.getLast?, l ≠ []) : lines (joinLines ls) = ls := by
  induction ls with
  | nil => rfl
  | cons l ls ih =>
    cases hls : ls with
    | nil =>
      subst hls
      rw [joinLines_singleton, lines_of_not_mem (h l (by simp)) (hlast l rfl)]
    | cons m ms =>
      have hne : ls ≠ [] := by simp [hls]
      rw [← hls, joinLines_cons l hne, lines_append_crlf (h l (by simp)),
        ih (fun l hl => h l (by simp [hl])) fun m hm => hlast m ?_]
      rw [List.getLast?_cons, Option.mem_some_iff]
      rw [Option.mem_def.mp hm]
      rfl

theorem dropReturn_isPrefix (l : List Char) : dropReturn l <+: l := by
  rw [dropReturn]
  split
  · exact List.dropLast_prefix l
  · exact List.prefix_refl l

theorem not_mem_lines (s : List Char) : ∀ l ∈ lines s, '\n' ∉ l := by
  have hfrom : ∀ line : List Char, '\n' ∉ line → ∀ l ∈ linesFrom line s, '\n' ∉ l := by
    induction s with
    | nil =>
      intro line hline l hl
      rw [linesFrom] at hl
      split at hl
      · cases hl
      · rwa [List.mem_singleton.mp hl]
    | cons c s ih =>
      intro line hline l hl
      rw [linesFrom] at hl
      split at hl
      · rcases List.mem_cons.mp hl with rfl | hl
        · exact fun h => hline ((dropReturn_isPrefix line).subset h)
        · exact ih [] (by simp) l hl
      · rename_i hc
        exact ih (line ++ [c]) (by simpa [hline] using Ne.symm hc) l hl
  exact hfrom [] (by simp)

theorem infix_of_mem_lines (s : List Char) : ∀ l ∈ lines s, l <:+: s := by
  have hfrom : ∀ line : List Char, ∀ l ∈ linesFrom line s, l <:+: line ++ s := by
    induction s with
    | nil =>
      intro line l hl
      rw [linesFrom] at hl
      split at hl
      · cases hl
      · rw [List.mem_singleton.mp hl]
        exact (List.prefix_append line []).isInfix
    | cons c s ih =>
      intro line l hl
      rw [linesFrom] at hl
      split at hl
      · rcases List.mem_cons.mp hl with rfl | hl
        · exact ((dropReturn_isPrefix line).trans (List.prefix_append _ _)).isInfix
        · exact (ih [] l hl).trans ⟨line ++ [c], [], by simp⟩
      · have hpart := ih (line ++ [c]) l hl
        rwa [List.append_assoc, List.singleton_append] at hpart
  exact hfrom []

theorem trimEnd_dropReturn (l : List Char) : trimEnd (dropReturn l) = trimEnd l := by
  rw [dropReturn]
  split
  · rename_i h
    obtain ⟨front, rfl⟩ := List.getLast?_eq_some_iff.mp h
    rw [List.dropLast_concat, trimEnd_append_blank (isBlank_of_mem_singleton rfl)]
  · rfl

theorem ink_dropReturn (l : List Char) : ink (dropReturn l) = ink l := by
  rw [← ink_trimEnd, trimEnd_dropReturn, ink_trimEnd]

theorem sum_ink_lines (s : List Char) : ((lines s).map ink).sum = ink s := by
  have hfrom : ∀ line : List Char, ((linesFrom line s).map ink).sum = ink line + ink s := by
    induction s with
    | nil =>
      intro line
      cases line <;> simp [linesFrom]
    | cons c s ih =>
      intro line
      rw [linesFrom]
      split
      · rename_i hc
        have hblank : ink ['\n'] = 0 := by decide
        rw [List.map_cons, List.sum_cons, ink_dropReturn, ih, ink_cons, hc, hblank, ink_nil]
      · rw [ih, ink_append, ink_cons c s, Nat.add_assoc]
  exact (hfrom []).trans (Nat.zero_add _)

/-- There are no more lines than line feeds, and one. -/
theorem length_lines_le (s : List Char) : (lines s).length ≤ s.count '\n' + 1 := by
  have hfrom : ∀ line : List Char, (linesFrom line s).length ≤ s.count '\n' + 1 := by
    induction s with
    | nil =>
      intro line
      cases line <;> simp [linesFrom]
    | cons c s ih =>
      intro line
      rw [linesFrom]
      split
      · rename_i hc
        rw [List.length_cons, hc, List.count_cons_self]
        exact Nat.succ_le_succ (ih [])
      · exact (ih _).trans (Nat.succ_le_succ (List.count_le_count_cons))
  exact hfrom []

end Outline.Text

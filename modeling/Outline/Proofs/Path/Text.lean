import Outline.Path.Expression
import Outline.Proofs.Number.Digits
import Outline.Proofs.Text.Quote

/-!
# Path expressions read back

A step compiles from its own segment, with its numbers in canonical form. A segment written as
a literal has its backslashes and quotes escaped and nothing else, so that it is read back
unless there is a line break in it; a bare segment may hold anything.
-/

namespace Outline

open Text Number

namespace Step

/-! ## Steps -/

theorem le_of_readIndex {s : List Char} {n : Nat} (h : readIndex s = some n) :
    (n : Int) ≤ indexLimit := by
  unfold readIndex at h
  split at h
  · rename_i m hm
    obtain ⟨hlo, hhi⟩ := Integer.holds_of_read (k := .ulong) hm
    cases h
    rw [Int.toNat_of_nonneg hlo]
    exact hhi
  · cases h

theorem readIndex_natText {n : Nat} (h : (n : Int) ≤ indexLimit) :
    readIndex (natText n) = some n := by
  have hread : Integer.read 10 0 indexLimit (natText n) = .ok n := by
    have hholds : Integer.Kind.ulong.Holds n := ⟨Int.natCast_nonneg n, h⟩
    have htext : intText n = natText n := by simp [intText]
    rw [← htext]
    exact Integer.read_intText hholds
  rw [readIndex, hread]
  rfl

theorem le_of_readPadded {s r : List Char} {n : Nat} (h : readPadded s = some (n, r)) :
    (n : Int) ≤ indexLimit := by
  simp only [readPadded, Option.bind_eq_bind, Option.bind_eq_some_iff, Option.pure_def,
    Option.some.injEq, Prod.mk.injEq] at h
  obtain ⟨m, hm, rfl, -⟩ := h
  exact le_of_readIndex hm

theorem readPadded_natText {n : Nat} (h : (n : Int) ≤ indexLimit) {c : Char} {r : List Char}
    (hd : isDigit c = false) (hb : isBlank c = false) :
    readPadded (natText n ++ c :: r) = some (n, c :: r) := by
  obtain ⟨d, s, hs, hdigit⟩ := natText_eq_cons n
  have htrim : trimStart (natText n ++ c :: r) = natText n ++ c :: r := by
    rw [trimStart, hs, List.cons_append,
      List.dropWhile_cons_of_neg (by simp [isBlank_of_isDigit hdigit])]
  have htake : (natText n ++ c :: r).takeWhile isDigit = natText n := by
    rw [List.takeWhile_append_of_pos isDigit_of_mem_natText,
      List.takeWhile_cons_of_neg (by simp [hd]), List.append_nil]
  have hdrop : (natText n ++ c :: r).dropWhile isDigit = c :: r := by
    rw [List.dropWhile_append_of_pos isDigit_of_mem_natText,
      List.dropWhile_cons_of_neg (by simp [hd])]
  have hrest : trimStart (c :: r) = c :: r := List.dropWhile_cons_of_neg (by simp [hb])
  simp only [readPadded, htrim, htake, hdrop, hrest, readIndex_natText h, Option.bind_eq_bind,
    Option.bind_some, Option.pure_def]

theorem readExtrapolation_eq_some {r : List Char} {s : Step} (h : readExtrapolation r = some s) :
    ∃ n : Nat, (n : Int) ≤ indexLimit ∧ s = extrapolation n := by
  simp only [readExtrapolation, Option.bind_eq_bind, Option.bind_eq_some_iff] at h
  obtain ⟨⟨n, r'⟩, hn, h⟩ := h
  split at h
  · rename_i heq
    cases heq
    cases h
    exact ⟨n, le_of_readPadded hn, rfl⟩
  · cases h

theorem readSubscript_eq_some {r : List Char} {s : Step} (h : readSubscript r = some s) :
    ∃ m n : Nat, (m : Int) ≤ indexLimit ∧ (n : Int) ≤ indexLimit ∧ s = subscript m n := by
  simp only [readSubscript, Option.bind_eq_bind, Option.bind_eq_some_iff] at h
  obtain ⟨⟨m, r'⟩, hm, h⟩ := h
  split at h
  · rename_i heq
    cases heq
    simp only [Option.bind_eq_some_iff] at h
    obtain ⟨⟨n, r''⟩, hn, h⟩ := h
    split at h
    · rename_i heq
      cases heq
      cases h
      exact ⟨m, n, le_of_readPadded hm, le_of_readPadded hn, rfl⟩
    · cases h
  · cases h

/-- A step either keeps its segment or has numbers, and those are in range. -/
theorem parse_cases {segment : List Char} {s : Step} (h : parse segment = .ok s) :
    s.chars = segment ∨ (∃ n : Nat, (n : Int) ≤ indexLimit ∧ s = extrapolation n) ∨
      (∃ m n : Nat, (m : Int) ≤ indexLimit ∧ (n : Int) ≤ indexLimit ∧ s = subscript m n) ∨
      ∃ n : Nat, (n : Int) ≤ indexLimit ∧ s = child n := by
  unfold parse at h
  split at h
  · rename_i hstep
    cases h
    unfold keyword? at hstep
    split at hstep <;> cases hstep <;> exact .inl rfl
  · unfold parseParametrized at h
    split at h
    · cases h
      exact .inl (by rw [chars, String.toList_ofList])
    · dsimp only at h
      split at h <;> cases h
      rename_i hread
      exact .inr (.inl (readExtrapolation_eq_some hread))
    · cases h
      exact .inl (by rw [chars, String.toList_ofList])
    · dsimp only at h
      split at h <;> cases h
      rename_i hread
      exact .inr (.inr (.inl (readSubscript_eq_some hread)))
    · cases h
      exact .inl (by rw [chars, String.toList_ofList])
    · split at h <;> cases h
      · rename_i hn
        exact .inr (.inr (.inr ⟨_, le_of_readIndex hn, rfl⟩))
      · exact .inl (by rw [chars, String.toList_ofList])

/-- A segment that starts with a digit is an index, if it is anything but a name. -/
theorem parse_of_isDigit {c : Char} {r : List Char} (hc : isDigit c = true) {n : Nat}
    (h : readIndex (c :: r) = some n) : parse (c :: r) = .ok (child n) := by
  have hkey : keyword? (c :: r) = none := by
    unfold keyword?
    split <;> simp_all [isDigit]
  rw [parse, hkey]
  simp only [parseParametrized]
  split <;> simp_all [isDigit]

theorem parse_chars_extrapolation {n : Nat} (h : (n : Int) ≤ indexLimit) :
    parse (extrapolation n).chars = .ok (extrapolation n) := by
  have hread : readExtrapolation (natText n ++ ['\x7d']) = some (extrapolation n) := by
    simp [readExtrapolation, readPadded_natText h (c := '\x7d') (by decide) (by decide)]
  simp [parse, chars, keyword?, parseParametrized, hread]

theorem parse_chars_subscript {m n : Nat} (hm : (m : Int) ≤ indexLimit)
    (hn : (n : Int) ≤ indexLimit) : parse (subscript m n).chars = .ok (subscript m n) := by
  have hread : readSubscript (natText m ++ ',' :: natText n ++ [']']) = some (subscript m n) := by
    simp [readSubscript, readPadded_natText hm (c := ',') (by decide) (by decide),
      readPadded_natText hn (c := ']') (by decide) (by decide)]
  simp only [List.append_assoc, List.cons_append] at hread
  simp [parse, chars, keyword?, parseParametrized, hread]

/-- Every compiled step compiles from its own segment. -/
theorem parse_chars {segment : List Char} {s : Step} (h : parse segment = .ok s) :
    parse s.chars = .ok s := by
  rcases parse_cases h with hs | ⟨n, hn, rfl⟩ | ⟨m, n, hm, hn, rfl⟩ | ⟨n, hn, rfl⟩
  · rwa [hs]
  · exact parse_chars_extrapolation hn
  · exact parse_chars_subscript hm hn
  · obtain ⟨c, r, hcons, hdigit⟩ := natText_eq_cons n
    have hread := readIndex_natText hn
    rw [hcons] at hread
    rw [chars, hcons]
    exact parse_of_isDigit hdigit hread

end Step

namespace Expression

/-! ## Segments -/

/-- A segment that can be written: as a literal it must not hold a line break. -/
def Legible (s : List Char) : Prop :=
  (s.contains '/' || s.head? == some '"') = true → ∀ c ∈ s, isBreak c = false

instance (s : List Char) : Decidable (Legible s) :=
  decidable_of_iff ((s.contains '/' || s.head? == some '"') = true →
    s.all (fun c => !isBreak c) = true) (by simp [Legible])

theorem readQuoted_escapeSegment_cons {c : Char} (hc : isBreak c = false) (s t : List Char) :
    readQuoted '"' (escapeSegment (c :: s) ++ t) =
      (readQuoted '"' (escapeSegment s ++ t)).prepend [c] := by
  rw [escapeSegment, List.flatMap_cons, List.append_assoc]
  by_cases hesc : c = '\\' ∨ c = '"'
  · rw [if_pos hesc, List.cons_append, List.singleton_append]
    rcases hesc with rfl | rfl <;> exact readQuoted_escape (by decide) rfl
  · rw [if_neg hesc, List.singleton_append]
    exact readQuoted_cons (fun h => hesc (.inr h)) (fun h => hesc (.inl h)) hc

theorem readQuoted_escapeSegment {s : List Char} (hs : ∀ c ∈ s, isBreak c = false)
    (t : List Char) : readQuoted '"' (escapeSegment s ++ '"' :: t) = .ok (s, t) := by
  induction s with
  | nil => rw [escapeSegment, List.flatMap_nil, List.nil_append, readQuoted, if_pos rfl]
  | cons c s ih =>
    rw [readQuoted_escapeSegment_cons (hs c List.mem_cons_self),
      ih fun d hd => hs d (List.mem_cons_of_mem c hd)]
    rfl

/-- A line break is not escaped and ends the literal before its quote. -/
theorem readQuoted_escapeSegment_break {s : List Char} (hs : ∃ c ∈ s, isBreak c = true)
    (t : List Char) :
    ∃ rest, readQuoted '"' (escapeSegment s ++ t) = .error ⟨.breakInString, rest⟩ := by
  induction s with
  | nil => simp at hs
  | cons c s ih =>
    cases hc : isBreak c with
    | true =>
      have hne : c ≠ '"' ∧ c ≠ '\\' := by
        constructor <;> rintro rfl <;> exact Bool.noConfusion hc
      have hkeep : escapeSegment (c :: s) ++ t = c :: (escapeSegment s ++ t) := by
        simp [escapeSegment, hne.1, hne.2]
      rw [hkeep, readQuoted, if_neg hne.1, if_neg hne.2, if_pos hc]
      exact ⟨_, rfl⟩
    | false =>
      obtain ⟨d, hd, hbreak⟩ := hs
      have hmem : d ∈ s := by
        refine (List.mem_cons.mp hd).resolve_left ?_
        rintro rfl
        simp [hc] at hbreak
      obtain ⟨rest, hrest⟩ := ih ⟨d, hmem, hbreak⟩
      rw [readQuoted_escapeSegment_cons hc, hrest]
      exact ⟨rest, rfl⟩

theorem segmentsFrom_quote (r : List Char) :
    segmentsFrom [] ('"' :: r) =
      match readQuoted '"' r with
      | .ok (t, r') => segmentsFrom t r'
      | .error e => .error (Token.haltError ('"' :: r) e) := by
  rw [segmentsFrom]
  simp only [if_false, and_self, if_true, Char.reduceEq]
  split <;> rename_i h <;> rw [h]

theorem segmentsFrom_bare {s : List Char} (current t : List Char) (hs : '/' ∉ s)
    (hq : current = [] → s.head? ≠ some '"') :
    segmentsFrom current (s ++ t) = segmentsFrom (current ++ s) t := by
  induction s generalizing current with
  | nil => rw [List.append_nil, List.nil_append]
  | cons c s ih =>
    have hc : c ≠ '/' := fun h => hs (h ▸ List.mem_cons_self)
    have hquote : ¬(c = '"' ∧ current = []) := fun h => hq h.2 (by rw [h.1]; rfl)
    rw [List.cons_append, segmentsFrom, if_neg hc, if_neg hquote,
      ih (current ++ [c]) (fun h => hs (List.mem_cons_of_mem c h))
        (fun h => absurd h (by simp)), List.append_assoc, List.singleton_append]

/-- A legible segment is read back, whatever follows it. -/
theorem segmentsFrom_segmentText {s : List Char} (hs : Legible s) (t : List Char) :
    segmentsFrom [] (segmentText s ++ t) = segmentsFrom s t := by
  unfold segmentText
  split
  · rename_i hq
    rw [List.cons_append, List.cons_append, List.append_assoc, List.singleton_append,
      segmentsFrom_quote, readQuoted_escapeSegment (hs hq)]
  · rename_i hq
    simp only [Bool.not_eq_true, Bool.or_eq_false_iff, List.contains_eq_mem,
      decide_eq_false_iff_not, beq_eq_false_iff_ne] at hq
    exact segmentsFrom_bare [] t hq.1 fun _ => hq.2

theorem segmentsFrom_illegible {s : List Char} (hs : ¬ Legible s) (t : List Char) :
    ∃ position context, segmentsFrom [] (segmentText s ++ t) =
      .error (.syntaxError .breakInString position context) := by
  simp only [Legible, Classical.not_imp, not_forall, Bool.not_eq_false] at hs
  obtain ⟨hq, c, hc, hbreak⟩ := hs
  obtain ⟨rest, hrest⟩ := readQuoted_escapeSegment_break ⟨c, hc, hbreak⟩ (['"'] ++ t)
  rw [segmentText, if_pos hq, List.cons_append, List.cons_append, List.append_assoc,
    segmentsFrom_quote, hrest]
  exact ⟨_, _, rfl⟩

theorem segmentsFrom_ne_nil {current s : List Char} {parts : List (List Char)}
    (h : segmentsFrom current s = .ok parts) : parts ≠ [] := by
  fun_induction segmentsFrom current s generalizing parts with
  | case1 =>
    cases h
    exact List.cons_ne_nil _ _
  | case2 current r ih =>
    cases hr : segmentsFrom [] r with
    | error e =>
      rw [hr] at h
      cases h
    | ok rest =>
      rw [hr] at h
      cases h
      exact List.cons_ne_nil _ _
  | case3 _ _ _ _ _ _ _ _ ih => exact ih h
  | case4 => cases h
  | case5 _ _ _ _ _ ih => exact ih h

/-! ## Expressions -/

theorem segmentsFrom_nil (current : List Char) : segmentsFrom current [] = .ok [current] := by
  rw [segmentsFrom]

theorem segmentsFrom_slash (current r : List Char) :
    segmentsFrom current ('/' :: r) = (segmentsFrom [] r).map (current :: ·) := by
  rw [segmentsFrom, if_pos rfl]

/-- Segments that can all be written are read back one by one. -/
theorem segments_intercalate {parts : List (List Char)} (hne : parts ≠ [])
    (hparts : ∀ s ∈ parts, Legible s) :
    segments (List.intercalate ['/'] (parts.map segmentText)) = .ok parts := by
  unfold segments
  induction parts with
  | nil => exact absurd rfl hne
  | cons s rest ih =>
    have hs : Legible s := hparts s List.mem_cons_self
    cases rest with
    | nil =>
      have hread := segmentsFrom_segmentText hs []
      rw [List.append_nil] at hread
      rw [List.map_singleton, List.intercalate_singleton, hread, segmentsFrom_nil]
    | cons s' rest =>
      have htail := ih (List.cons_ne_nil _ _) fun p hp => hparts p (List.mem_cons_of_mem s hp)
      rw [List.map_cons, List.map_cons, List.intercalate_cons_cons, List.append_assoc,
        List.singleton_append, segmentsFrom_segmentText hs, segmentsFrom_slash]
      rw [List.map_cons] at htail
      rw [htail]
      rfl

/-- The first segment that cannot be written stops the reader. -/
theorem segments_intercalate_illegible {parts : List (List Char)}
    (hparts : ∃ s ∈ parts, ¬ Legible s) :
    ∃ position context, segments (List.intercalate ['/'] (parts.map segmentText)) =
      .error (.syntaxError .breakInString position context) := by
  unfold segments
  induction parts with
  | nil => simp at hparts
  | cons s rest ih =>
    by_cases hs : Legible s
    · obtain ⟨p, hp, hbad⟩ := hparts
      have hmem : p ∈ rest := (List.mem_cons.mp hp).resolve_left fun h => hbad (h ▸ hs)
      cases rest with
      | nil => cases hmem
      | cons s' rest =>
        obtain ⟨position, context, herr⟩ := ih ⟨p, hmem, hbad⟩
        rw [List.map_cons] at herr
        rw [List.map_cons, List.map_cons, List.intercalate_cons_cons, List.append_assoc,
          List.singleton_append, segmentsFrom_segmentText hs, segmentsFrom_slash, herr]
        exact ⟨position, context, rfl⟩
    · cases rest with
      | nil =>
        obtain ⟨position, context, herr⟩ := segmentsFrom_illegible hs []
        rw [List.append_nil] at herr
        exact ⟨position, context, by rw [List.map_singleton, List.intercalate_singleton, herr]⟩
      | cons s' rest =>
        rw [List.map_cons, List.map_cons, List.intercalate_cons_cons, List.append_assoc]
        exact segmentsFrom_illegible hs _

theorem mapM_parse_chars {parts : List (List Char)} {steps : List Step}
    (h : parts.mapM Step.parse = .ok steps) :
    (steps.map Step.chars).mapM Step.parse = .ok steps := by
  induction parts generalizing steps with
  | nil =>
    rw [List.mapM_nil, pure_eq_ok] at h
    rw [← h]
    rfl
  | cons p rest ih =>
    simp only [List.mapM_cons, bind_eq_ok, pure_eq_ok] at h
    obtain ⟨s, hs, tail, htail, rfl⟩ := h
    rw [List.map_cons, List.mapM_cons, Step.parse_chars hs, ih htail]
    rfl

theorem chars_eq_intercalate (e : Expression) :
    e.chars = List.intercalate ['/'] ((e.steps.map Step.chars).map segmentText) := by
  rw [chars, List.map_map]
  rfl

theorem steps_of_parse {source : String} {e : Expression} (h : parse source = .ok e) :
    e.steps.map Step.chars ≠ [] ∧ (e.steps.map Step.chars).mapM Step.parse = .ok e.steps := by
  simp only [parse, parseChars, bind_eq_ok, pure_eq_ok] at h
  obtain ⟨parts, hparts, steps, hsteps, rfl⟩ := h
  refine ⟨fun hnil => ?_, mapM_parse_chars hsteps⟩
  cases parts with
  | nil => exact segmentsFrom_ne_nil hparts rfl
  | cons p rest =>
    simp only [List.mapM_cons, bind_eq_ok, pure_eq_ok] at hsteps
    obtain ⟨s, -, tail, -, rfl⟩ := hsteps
    exact List.cons_ne_nil _ _ hnil

/-- The text of a compiled expression compiles to the same expression exactly if none of its
segments is a literal with a line break; otherwise it is not well formed. -/
theorem parse_text_iff {source : String} {e : Expression} (h : parse source = .ok e) :
    (parse e.text = .ok e ↔ ∀ s ∈ e.steps, Legible s.chars) ∧
      ((∃ s ∈ e.steps, ¬ Legible s.chars) → ∃ position context,
        parse e.text = .error (.syntaxError .breakInString position context)) := by
  obtain ⟨hne, hsteps⟩ := steps_of_parse h
  have htext : parse e.text = parseChars e.chars := by rw [parse, text, String.toList_ofList]
  have hbroken : (∃ s ∈ e.steps, ¬ Legible s.chars) → ∃ position context,
      parse e.text = .error (.syntaxError .breakInString position context) := by
    rintro ⟨s, hs, hbad⟩
    obtain ⟨position, context, herr⟩ :=
      segments_intercalate_illegible ⟨s.chars, List.mem_map_of_mem hs, hbad⟩
    exact ⟨position, context, by rw [htext, parseChars, chars_eq_intercalate, herr]; rfl⟩
  refine ⟨⟨fun hback s hs => ?_, fun hall => ?_⟩, hbroken⟩
  · by_contra hbad
    obtain ⟨position, context, herr⟩ := hbroken ⟨s, hs, hbad⟩
    rw [hback] at herr
    cases herr
  · have hparts : ∀ p ∈ e.steps.map Step.chars, Legible p := by
      intro p hp
      obtain ⟨s, hs, rfl⟩ := List.mem_map.mp hp
      exact hall s hs
    rw [htext, parseChars, chars_eq_intercalate, segments_intercalate hne hparts]
    change (do return (⟨← (e.steps.map Step.chars).mapM Step.parse⟩ : Expression)) = _
    rw [hsteps]
    rfl

/-- An escape may stand for a line break; slashes, quotes and blanks do no harm. -/
theorem parse_text_iff_lineBreak :
    (∃ e position context, parse "\"a\\nb/c\"" = .ok e ∧
      parse e.text = .error (.syntaxError .breakInString position context)) ∧
    ∃ e, parse "a/\"b/\\\"c\"d/[ 1, 02 ]" = .ok e ∧ e.steps.length = 3 ∧
      parse e.text = .ok e := by
  have hbad : parse "\"a\\nb/c\"" = .ok ⟨[.named "a\nb/c"]⟩ := by decide +kernel
  have hgood : parse "a/\"b/\\\"c\"d/[ 1, 02 ]" =
      .ok ⟨[.named "a", .named "b/\"cd", .subscript 1 2]⟩ := by decide +kernel
  obtain ⟨position, context, herr⟩ := (parse_text_iff hbad).2 (by decide)
  exact ⟨⟨_, position, context, hbad, herr⟩, _, hgood, rfl,
    (parse_text_iff hgood).1.mpr (by decide +kernel)⟩

end Expression
end Outline

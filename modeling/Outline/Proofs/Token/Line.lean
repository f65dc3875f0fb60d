import Outline.Document.Print
import Outline.Proofs.Text.Quote

/-!
# Written lines scan back

The line of a node, as it is written, is scanned into the tokens of its level, its name, and the
tag and text of its value. What follows the line does not matter.
-/

namespace Outline.Token

open Text Document

/-- Text that does not start with a quote of any kind. -/
structure Unquoted (s : List Char) : Prop where
  double : s.head? ≠ some '"'
  single : s.head? ≠ some '\''
  verbatim : ∀ r, s ≠ '@' :: '"' :: r

/-- Text at which a bare word ends. -/
def EndsBare (s : List Char) : Prop := ∀ c ∈ s.head?, isBare c = false

variable {s r t : List Char} {level : Nat}

theorem span_bare (hs : ∀ c ∈ s, isBare c = true) (hr : EndsBare r) :
    (s ++ r).takeWhile isBare = s ∧ (s ++ r).dropWhile isBare = r := by
  rw [List.takeWhile_append_of_pos hs, List.dropWhile_append_of_pos hs]
  cases r with
  | nil => simp
  | cons c r =>
    have hc : isBare c = false := hr c rfl
    simp [hc]

theorem endsBare_of_endsName (hr : endsName r = true) : EndsBare r := by
  cases r with
  | nil => simp [EndsBare]
  | cons c r =>
    intro c' hc'
    obtain rfl : c = c' := by simpa using hc'
    simp only [endsName, atLineEnd_cons, List.head?_cons, Bool.or_eq_true, beq_iff_eq,
      Option.some.injEq] at hr
    rcases hr with hr | rfl
    · simp [isBare, hr]
    · rfl

theorem Unquoted.append (hs : Unquoted s) (hr : EndsBare r) : Unquoted (s ++ r) := by
  have hrq : r.head? ≠ some '"' := fun h => by simpa [isBare, isBreak] using hr '"' h
  cases s with
  | nil =>
    refine ⟨hrq, fun h => by simpa [isBare, isBreak] using hr '\'' h, fun t ht => ?_⟩
    have hat : isBare '@' = false := hr '@' (by simp [show r = _ from ht])
    simp [isBare, isBreak] at hat
  | cons c s =>
    refine ⟨by simpa using hs.double, by simpa using hs.single, fun t ht => ?_⟩
    cases s with
    | nil =>
      have hr' : r = '"' :: t := by simpa using (List.cons.inj ht).2
      exact hrq (by simp [hr'])
    | cons d s =>
      obtain ⟨rfl, htail⟩ := List.cons.inj ht
      obtain ⟨rfl, -⟩ := List.cons.inj htail
      exact hs.verbatim s rfl

theorem unquoted_of_bare {value : Bool} (h : Bare value s) : Unquoted s := by
  refine ⟨fun hd => ?_, fun hd => ?_, fun r hr => ?_⟩
  · exact (h.plain '"' (List.mem_of_mem_head? hd)).2.1 rfl
  · cases s with
    | nil => cases hd
    | cons c s =>
      obtain rfl : c = '\'' := by simpa using hd
      exact Bool.noConfusion h.start
  · subst hr
    exact Bool.noConfusion h.start

theorem isBare_of_bare {value : Bool} (h : Bare value s) : ∀ c ∈ s, isBare c = true := by
  intro c hc
  obtain ⟨hcolon, -, hb⟩ := h.plain c hc
  simp [isBare, hcolon, hb]

theorem trim_of_bare {value : Bool} (h : Bare value s) : trim s = s := by
  have hstart : trimStart s = s := by
    cases s with
    | nil => rfl
    | cons c s => simp [trimStart, h.head c rfl]
  have hend : trimEnd s = s := by
    cases hlast : s.getLast? with
    | none =>
      obtain rfl := List.getLast?_eq_none_iff.mp hlast
      rfl
    | some c =>
      obtain ⟨s', rfl⟩ := List.getLast?_eq_some_iff.mp hlast
      exact trimEnd_concat_of_not_blank s' (h.last c hlast)
  rw [Text.trim, hstart, hend]

/-! ## Names -/

theorem readName_of_unquoted (h : Unquoted s) :
    readName s = .ok (s.takeWhile isBare, s.dropWhile isBare) := by
  unfold readName
  split
  · exact absurd rfl (h.verbatim _)
  · exact absurd rfl h.double
  · exact absurd rfl h.single
  · rfl

theorem readName_quoted (s : List Char) (hr : endsName r = true) :
    readName (quoted s ++ r) = .ok (s, r) := by
  have hread := readQuoted_flatMap s r
  simp only [quoted, List.cons_append, List.append_assoc, List.nil_append, readName, hread,
    closedBy, hr, if_true]

theorem readName_quote (s : List Char) (hr : endsName r = true) :
    readName (quote false s ++ r) = .ok (s, r) := by
  have hends := endsBare_of_endsName hr
  rcases quote_cases false s with ⟨h, hb⟩ | h | ⟨h, hb⟩ <;> rw [h]
  · have hhead : r.head? ≠ some '"' := fun hd => by simpa [isBare, isBreak] using hends '"' hd
    have hread := readVerbatim_doubleQuotes hb r hhead
    simp only [verbatim, List.cons_append, List.append_assoc, List.nil_append, readName, hread,
      closedBy, hr, if_true]
  · exact readName_quoted s hr
  · obtain ⟨htake, hdrop⟩ := span_bare (isBare_of_bare hb) hends
    rw [readName_of_unquoted ((unquoted_of_bare hb).append hends), htake, hdrop]

/-! ## Fields -/

theorem readField_of_unquoted (h : Unquoted s) :
    readField s =
      if (s.dropWhile isBare).head? = some ':' then
        .ok (.tag (trim (s.takeWhile isBare)), s.dropWhile isBare)
      else .ok (.text (trim (s.takeWhile isBare)), s.dropWhile isBare) := by
  unfold readField
  split
  · exact absurd rfl (h.verbatim _)
  · exact absurd rfl h.double
  · exact absurd rfl h.single
  · rfl

theorem readField_quoted (s : List Char) (hr : atLineEnd r = true) :
    readField (quoted s ++ r) = .ok (.text s, r) := by
  have hread := readQuoted_flatMap s r
  simp only [quoted, List.cons_append, List.append_assoc, List.nil_append, readField, hread,
    closedBy, endsValue, hr, if_true]
  rfl

theorem readField_quote (s : List Char) (hr : atLineEnd r = true) :
    readField (quote true s ++ r) = .ok (.text s, r) := by
  have hname : endsName r = true := by simp [endsName, hr]
  have hends := endsBare_of_endsName hname
  rcases quote_cases true s with ⟨h, hb⟩ | h | ⟨h, hb⟩ <;> rw [h]
  · have hhead : r.head? ≠ some '"' := fun hd => by simpa [isBare, isBreak] using hends '"' hd
    have hread := readVerbatim_doubleQuotes hb r hhead
    simp only [verbatim, List.cons_append, List.append_assoc, List.nil_append, readField, hread,
      closedBy, endsValue, hr, if_true]
    rfl
  · exact readField_quoted s hr
  · obtain ⟨htake, hdrop⟩ := span_bare (isBare_of_bare hb) hends
    have hcolon : r.head? ≠ some ':' := by
      cases r with
      | nil => simp
      | cons c r =>
        rintro hc
        obtain rfl : c = ':' := by simpa using hc
        simp [isBreak] at hr
    rw [readField_of_unquoted ((unquoted_of_bare hb).append hends), htake, hdrop, if_neg hcolon,
      trim_of_bare hb]

/-- A tag that reads back where it is written. -/
structure BareTag (tag : List Char) : Prop where
  isBare : ∀ c ∈ tag, isBare c = true
  trim : trim tag = tag
  unquoted : Unquoted tag

theorem BareTag.readField (ht : BareTag t) (r : List Char) :
    readField (t ++ ':' :: r) = .ok (.tag t, ':' :: r) := by
  have hends : EndsBare (':' :: r) := by
    intro c hc
    obtain rfl : ':' = c := by simpa using hc
    rfl
  obtain ⟨htake, hdrop⟩ := span_bare ht.isBare hends
  rw [readField_of_unquoted (ht.unquoted.append hends), htake, hdrop, ht.trim]
  rfl

/-! ## Lines -/

/-- Kind and text of a token, without its position. -/
abbrev Shape := Kind × List Char

def Lexeme.shape (l : Lexeme) : Shape := (l.kind, l.text)

def Shapes (x : Scanned) (shapes : List Shape) (rest : List Char) : Prop :=
  ∃ ls, x = .ok (ls, rest) ∧ ls.map Lexeme.shape = shapes

def valueShapes (tag text : String) : List Shape :=
  (.separator, [':']) ::
    ((if tag.isEmpty || tag == "string" then [] else [(.type, tag.toList), (.separator, [':'])]) ++
      [(.value, text.toList)])

def lineShapes (level : Nat) (name : String) (value : Option (String × String)) : List Shape :=
  (if level = 0 then [] else [(.space, List.replicate (3 * level) ' ')]) ++
    (.name, name.toList) :: ((value.map fun v => valueShapes v.1 v.2).getD [] ++
      [(.lineBreak, crlf)])

/-- A tag that is understood where it is written; the tag of texts is not written at all. -/
def PlainTag (tag : String) : Prop := tag = "string" ∨ tag ≠ "" ∧ BareTag tag.toList

theorem PlainTag.cases {tag : String} (h : PlainTag tag) :
    tag = "string" ∨ (tag ≠ "" ∧ tag ≠ "string" ∧ BareTag tag.toList) := by
  by_cases hs : tag = "string"
  · exact .inl hs
  · rcases h with h | ⟨hne, hbare⟩
    · exact absurd h hs
    · exact .inr ⟨hne, hs, hbare⟩

theorem valueText_string (text : String) :
    valueText "string" text = ':' :: quote true text.toList := by
  simp [valueText]

theorem valueShapes_string (text : String) :
    valueShapes "string" text = [(.separator, [':']), (.value, text.toList)] := by
  simp [valueShapes]

theorem valueShapes_typed {tag : String} (hne : tag ≠ "") (hs : tag ≠ "string")
    (text : String) : valueShapes tag text =
      [(.separator, [':']), (.type, tag.toList), (.separator, [':']), (.value, text.toList)] := by
  simp [valueShapes, hne, hs]

theorem valueText_typed {tag : String} (hne : tag ≠ "") (hs : tag ≠ "string") (text : String) :
    ∃ body, valueText tag text = ':' :: (tag.toList ++ ':' :: body) ∧
      (body = quoted text.toList ∨ body = quote true text.toList) := by
  by_cases ht : text = ""
  · refine ⟨['"', '"'], ?_, .inl ?_⟩
    · simp [valueText, hne, hs, ht]
    · simp [ht, quoted]
  · refine ⟨quote true text.toList, ?_, .inr rfl⟩
    simp [valueText, hne, hs, ht]

theorem scanValue_valueText {tag : String} (htag : PlainTag tag) (text : String)
    (hr : atLineEnd r = true) :
    Shapes (scanValue (valueText tag text ++ r)) (valueShapes tag text) r := by
  rcases htag.cases with rfl | ⟨hne, hs, hbare⟩
  · have hread := readField_quote text.toList hr
    rw [valueText_string, valueShapes_string, List.cons_append, scanValue, hread]
    exact ⟨_, rfl, rfl⟩
  · obtain ⟨body, htext, hbody⟩ := valueText_typed hne hs text
    have hread : readField (body ++ r) = .ok (.text text.toList, r) := by
      rcases hbody with rfl | rfl
      · exact readField_quoted text.toList hr
      · exact readField_quote text.toList hr
    rw [htext, valueShapes_typed hne hs, List.cons_append, List.append_assoc, List.cons_append,
      scanValue, hbare.readField]
    simp only [bind, Except.bind, scanTypedValue, hread]
    exact ⟨_, rfl, rfl⟩

theorem atLineEnd_crlf (s : List Char) : atLineEnd (crlf ++ s) = true := rfl

/-- A name without a value is written so that something stands on its line. -/
theorem readName_nameText (name : String) (value : Option Value) (hr : endsName r = true) :
    readName (nameText name value ++ r) = .ok (name.toList, r) := by
  unfold nameText
  split
  · rename_i h
    have hname : name = "" := by simpa using (Bool.and_eq_true_iff.mp h).1
    have hread := readName_quoted [] hr
    simpa [hname, quoted] using hread
  · exact readName_quote name.toList hr

/-- Text that does not start with a mark of a comment. -/
def Uncommented (s : List Char) : Prop := ∀ t, s ≠ '/' :: '/' :: t ∧ s ≠ '/' :: '*' :: t

theorem scanContent_of_uncommented (h : Uncommented s) (indent : List Lexeme) :
    scanContent indent s = do
      let (ls, r) ← scanEntry s
      return (indent ++ ls, r) := by
  unfold scanContent
  split
  · exact absurd rfl (h _).2
  · exact absurd rfl (h _).1
  · rfl

/-- Text at which the entry of a line starts. -/
structure StartsEntry (s : List Char) : Prop where
  head : ∃ c ∈ s.head?, c ≠ ' ' ∧ isBreak c = false
  comment : ∀ r, s ≠ '/' :: '/' :: r ∧ s ≠ '/' :: '*' :: r

theorem startsEntry_cons {c : Char} (hspace : c ≠ ' ') (hbreak : isBreak c = false)
    (hslash : c ≠ '/') (s : List Char) : StartsEntry (c :: s) := by
  refine ⟨⟨c, rfl, hspace, hbreak⟩, fun r => ⟨fun h => ?_, fun h => ?_⟩⟩
  · exact hslash (List.cons.inj h).1
  · exact hslash (List.cons.inj h).1

theorem startsEntry_of_bare {value : Bool} (h : Bare value s) (hs : s ≠ []) (hr : EndsBare r) :
    StartsEntry (s ++ r) := by
  cases s with
  | nil => exact absurd rfl hs
  | cons c s =>
    have hblank : isBlank c = false := h.head c rfl
    have hspace : c ≠ ' ' := by
      rintro rfl
      exact Bool.noConfusion hblank
    have hbreak := (h.plain c (by simp)).2.2
    refine ⟨⟨c, rfl, hspace, hbreak⟩, fun t => ?_⟩
    cases s with
    | nil =>
      have hsecond : ∀ d, isBare d = true → c :: ([] ++ r) ≠ '/' :: d :: t := by
        intro d hd heq
        have hr' : r = d :: t := (List.cons.inj heq).2
        exact absurd hd (by simp [hr d (by simp [hr'])])
      exact ⟨hsecond '/' rfl, hsecond '*' rfl⟩
    | cons d s =>
      refine ⟨fun heq => ?_, fun heq => ?_⟩
      · obtain ⟨rfl, htail⟩ := List.cons.inj heq
        obtain ⟨rfl, -⟩ := List.cons.inj htail
        exact Bool.noConfusion h.start
      · obtain ⟨rfl, htail⟩ := List.cons.inj heq
        obtain ⟨rfl, -⟩ := List.cons.inj htail
        exact Bool.noConfusion h.start

theorem startsEntry_quote (hs : s ≠ []) (hr : endsName r = true) :
    StartsEntry (quote false s ++ r) := by
  rcases quote_cases false s with ⟨h, -⟩ | h | ⟨h, hb⟩ <;> rw [h]
  · exact startsEntry_cons (by decide) rfl (by decide) _
  · exact startsEntry_cons (by decide) rfl (by decide) _
  · exact startsEntry_of_bare hb hs (endsBare_of_endsName hr)

/-- A written line starts with neither a blank nor a break, and not like a comment. -/
theorem startsEntry_nameText (name : String) {value : Option Value} (hr : endsName r = true)
    (hv : value = none ∨ r.head? = some ':') : StartsEntry (nameText name value ++ r) := by
  unfold nameText
  split
  · exact startsEntry_cons (by decide) rfl (by decide) _
  · rename_i h
    by_cases hname : name.toList = []
    · rcases hv with rfl | hcolon
      · have hempty : name = "" := by simpa using hname
        exact absurd (by simp [hempty]) h
      · obtain ⟨s, rfl⟩ := List.head?_eq_some_iff.mp hcolon
        rw [hname]
        exact startsEntry_cons (by decide) rfl (by decide) s
    · exact startsEntry_quote hname hr

theorem length_sub_dropWhile (p : Char → Bool) (s : List Char) :
    s.length - (s.dropWhile p).length = (s.takeWhile p).length := by
  have hlen := congrArg List.length (List.takeWhile_append_dropWhile (p := p) (l := s))
  rw [List.length_append] at hlen
  omega

/-- The lexemes in front of a line of the given level, where `start` begins with them. -/
def indentLexemes (level : Nat) (start : List Char) : List Lexeme :=
  if level = 0 then [] else [⟨.space, List.replicate (3 * level) ' ', start⟩]

theorem scanLine_append_indent (level : Nat) {c : Char} (hspace : c ≠ ' ')
    (hbreak : isBreak c = false) (s : List Char) :
    scanLine (indent level ++ c :: s) =
      scanContent (indentLexemes level (indent level ++ c :: s)) (c :: s) := by
  have hdrop : (indent level ++ c :: s).dropWhile (· == ' ') = c :: s := by
    rw [indent, List.dropWhile_append_of_pos (by simp)]
    simp [hspace]
  have hwidth : (indent level ++ c :: s).length - (c :: s).length = 3 * level := by
    simp [indent]
  have hmod : ¬ 3 * level % 3 ≠ 0 := by omega
  simp only [scanLine, hdrop, hwidth, hbreak, hmod, Bool.false_eq_true, if_false, indentLexemes]
  congr 1
  by_cases hl : level = 0
  · simp [hl]
  · simp [hl, show 3 * level ≠ 0 by omega]

theorem scanLine_indent (level : Nat) (hs : StartsEntry s) {shapes : List Shape}
    (hentry : Shapes (scanEntry s) shapes r) :
    Shapes (scanLine (indent level ++ s))
      ((if level = 0 then [] else [(.space, List.replicate (3 * level) ' ')]) ++ shapes) r := by
  obtain ⟨⟨c, hc, hspace, hbreak⟩, hcomment⟩ := hs
  obtain ⟨s', rfl⟩ := List.head?_eq_some_iff.mp hc
  obtain ⟨ls, hls, hshapes⟩ := hentry
  have hcontent : ∀ pre, scanContent pre (c :: s') = .ok (pre ++ ls, r) := by
    intro pre
    rw [scanContent_of_uncommented hcomment, hls]
    rfl
  refine ⟨indentLexemes level (indent level ++ c :: s') ++ ls, ?_, ?_⟩
  · rw [scanLine_append_indent level hspace hbreak, hcontent]
  · rw [List.map_append, hshapes, indentLexemes]
    by_cases hl : level = 0
    · simp [hl]
    · simp [hl, Lexeme.shape]

theorem scanEntry_of_parts {name : List Char} {rest : List Char} {values : List Shape}
    (hname : readName s = .ok (name, r)) (hvalue : Shapes (scanValue r) values (crlf ++ rest)) :
    Shapes (scanEntry s) ((.name, name) :: (values ++ [(.lineBreak, crlf)])) rest := by
  have hending : scanLineEnd (crlf ++ rest) = .ok ([⟨.lineBreak, crlf, crlf ++ rest⟩], rest) := rfl
  obtain ⟨ls, hls, hshapes⟩ := hvalue
  refine ⟨⟨.name, name, s⟩ :: ls ++ [⟨.lineBreak, crlf, crlf ++ rest⟩], ?_, ?_⟩
  · simp only [scanEntry, hname, hls, hending, bind, Except.bind]
    rfl
  · simp [hshapes, Lexeme.shape]

/-- The line of a node is scanned into its tokens, whatever follows it. -/
theorem scanLine_lineText {describe : Value → String × String} (level : Nat) (name : String)
    {value : Option Value} (hv : ∀ v ∈ value, PlainTag (describe v).1) (rest : List Char) :
    Shapes (scanLine (lineText describe false level name value ++ (crlf ++ rest)))
      (lineShapes level name (value.map describe)) rest := by
  rw [lineText, Bool.false_and, if_neg (by simp), List.append_assoc, List.append_assoc]
  cases value with
  | none =>
    have hname : endsName (crlf ++ rest) = true := rfl
    exact scanLine_indent level (startsEntry_nameText name hname (.inl rfl))
      (scanEntry_of_parts (readName_nameText name none hname) ⟨[], rfl, rfl⟩)
  | some v =>
    have hvalue := scanValue_valueText (hv v rfl) (describe v).2 (atLineEnd_crlf rest)
    have hhead : (valueText (describe v).1 (describe v).2 ++ (crlf ++ rest)).head? = some ':' := rfl
    have hname : endsName (valueText (describe v).1 (describe v).2 ++ (crlf ++ rest)) = true := by
      simp [endsName, hhead]
    exact scanLine_indent level (startsEntry_nameText name hname (.inr hhead))
      (scanEntry_of_parts (readName_nameText name (some v) hname) hvalue)

/-! ## Line by line -/

theorem scan_of_scanLine {ls : List Lexeme} (hs : s ≠ []) (h : scanLine s = .ok (ls, r)) :
    scan s = do
      let rest ← scan r
      return ls ++ rest := by
  cases s with
  | nil => exact absurd rfl hs
  | cons c s =>
    rw [scan]
    split
    · rename_i e he
      rw [h] at he
      cases he
    · rename_i ls' r' he
      rw [h] at he
      cases he
      rfl

theorem scan_of_scanLine_error {e : Halt} (hs : s ≠ []) (h : scanLine s = .error e) :
    scan s = .error e := by
  cases s with
  | nil => exact absurd rfl hs
  | cons c s =>
    rw [scan]
    split
    · rename_i e' he
      rw [h] at he
      cases he
      rfl
    · rename_i ls' r' he
      rw [h] at he
      cases he

end Outline.Token

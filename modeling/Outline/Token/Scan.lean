import Outline.Outcome
import Outline.Text.Blank
import Outline.Text.Quoted
import Outline.Token.Basic

/-!
# From text to tokens

Scanning goes line by line. A line is indentation followed by a comment or by an entry
`name`, `name:value` or `name:type:value`; lines without any of these leave no tokens. A
lexeme remembers the text that stood before the scanner when the lexeme began, so that its
position can be computed from the whole source afterwards.
-/

namespace Outline.Token

open Text

structure Lexeme where
  kind : Kind
  text : List Char
  /-- The source from the first character of the lexeme on. -/
  start : List Char
  deriving DecidableEq, Repr

abbrev Scanned := Except Halt (List Lexeme × List Char)

/-- A character of a bare name, tag or value. -/
def isBare (c : Char) : Bool := !(c == ':' || isBreak c)

/-- Nothing but the end of the line may follow a quoted value. -/
def endsValue (s : List Char) : Bool := atLineEnd s

/-- A quoted name is followed by a separator or the end of the line. -/
def endsName (s : List Char) : Bool := atLineEnd s || s.head? == some ':'

def closedBy (p : List Char → Bool) (fault : SyntaxFault) : Reading → Reading
  | .ok (t, r) => if p r then .ok (t, r) else .error ⟨fault, r⟩
  | .error e => .error e

/-- The name at the start of an entry. A bare name is kept as it stands, blanks included. -/
def readName : List Char → Reading
  | '@' :: '"' :: s => closedBy endsName .textAfterName (readVerbatim s)
  | '"' :: s => closedBy endsName .textAfterName (readQuoted '"' s)
  | '\'' :: s => closedBy endsName .textAfterName (readQuoted '\'' s)
  | s => .ok (s.takeWhile isBare, s.dropWhile isBare)

/-- What stands behind a separator. -/
inductive Field
  /-- Bare text in front of another separator. -/
  | tag (text : List Char)
  | text (text : List Char)
  deriving DecidableEq, Repr

def Field.kind : Field → Kind
  | tag _ => .type
  | text _ => .value

def Field.content : Field → List Char
  | tag t => t
  | text t => t

/-- The field behind a separator. Bare text is trimmed. -/
def readField : List Char → Except Halt (Field × List Char)
  | '@' :: '"' :: s => do
    let (t, r) ← closedBy endsValue .textAfterValue (readVerbatim s)
    return (.text t, r)
  | '"' :: s => do
    let (t, r) ← closedBy endsValue .textAfterValue (readQuoted '"' s)
    return (.text t, r)
  | '\'' :: s => do
    let (t, r) ← closedBy endsValue .textAfterValue (readQuoted '\'' s)
    return (.text t, r)
  | s =>
    let t := trim (s.takeWhile isBare)
    let r := s.dropWhile isBare
    if r.head? = some ':' then .ok (.tag t, r) else .ok (.text t, r)

/-- The text behind the end of a line; the last line of a text may lack its break. -/
def nextLine (s : List Char) : Except Halt (List Char) :=
  if s.isEmpty then .ok [] else breakLine s

def scanLineEnd (s : List Char) : Scanned := do
  let r ← nextLine s
  return (if s.isEmpty then [] else [⟨.lineBreak, crlf, s⟩], r)

/-- The value behind a tag. -/
def scanTypedValue (s : List Char) : Scanned :=
  match s with
  | ':' :: s' => do
    match ← readField s' with
    | (.tag _, r) => throw ⟨.secondSeparator, r⟩
    | (.text t, r) => return ([⟨.separator, [':'], s⟩, ⟨.value, t, s'⟩], r)
  | _ => .ok ([], s)

/-- What stands between a name and the end of its line. -/
def scanValue (s : List Char) : Scanned :=
  match s with
  | ':' :: s' => do
    let (field, r) ← readField s'
    let head := [⟨.separator, [':'], s⟩, ⟨field.kind, field.content, s'⟩]
    match field with
    | .tag _ =>
      let (ls, r') ← scanTypedValue r
      return (head ++ ls, r')
    | .text _ => return (head, r)
  | _ => .ok ([], s)

def scanEntry (s : List Char) : Scanned := do
  let (name, r) ← readName s
  let (value, r) ← scanValue r
  let (ending, r) ← scanLineEnd r
  return (⟨.name, name, s⟩ :: value ++ ending, r)

/-- The text of a block comment up to its end, starting behind the opening mark. -/
def readComment : List Char → Reading
  | [] => .error ⟨.unclosedComment, []⟩
  | '*' :: '/' :: s => .ok ([], s)
  | c :: s => (readComment s).prepend [c]

/-- Each line loses its margin of spaces and asterisks and the blanks at its end. -/
def cleanComment (raw : List Char) : List Char :=
  trim (joinLines ((lines raw).map fun line =>
    trimEnd (line.dropWhile fun c => c == ' ' || c == '*')))

/-- Only spaces may stand between a block comment and the end of its line. -/
def closeComment : Reading → Reading
  | .ok (t, r) => closedBy atLineEnd .textAfterComment (.ok (t, r.dropWhile (· == ' ')))
  | .error e => .error e

/-- A comment line with the text `t`, where `r` starts at the end of the line. An empty
comment is a blank line: it leaves no tokens, its indentation included. -/
def finishComment (indent : List Lexeme) (kind : Kind) (s t r : List Char) : Scanned := do
  let next ← nextLine r
  return (if t.isEmpty then [] else indent ++ [⟨kind, t, s⟩, ⟨.lineBreak, crlf, r⟩], next)

def scanContent (indent : List Lexeme) (s : List Char) : Scanned :=
  match s with
  | '/' :: '*' :: s' => do
    let (raw, r) ← closeComment (readComment s')
    finishComment indent .blockComment s (cleanComment raw) r
  | '/' :: '/' :: s' =>
    finishComment indent .lineComment s (trim (s'.takeWhile (!isBreak ·)))
      (s'.dropWhile (!isBreak ·))
  | _ => do
    let (ls, r) ← scanEntry s
    return (indent ++ ls, r)

def scanLine (s : List Char) : Scanned :=
  let body := s.dropWhile (· == ' ')
  let width := s.length - body.length
  match body with
  | [] => .ok ([], [])
  | c :: _ =>
    if isBreak c then do
      let r ← breakLine body
      return ([], r)
    else if width % 3 ≠ 0 then .error ⟨.indentation width, body⟩
    else scanContent (if width = 0 then [] else [⟨.space, List.replicate width ' ', s⟩]) body

theorem length_dropWhile_le (p : Char → Bool) (s : List Char) :
    (s.dropWhile p).length ≤ s.length :=
  (List.dropWhile_suffix p).length_le

theorem closedBy_eq_ok {p : List Char → Bool} {fault : SyntaxFault} {x : Reading}
    {t r : List Char} : closedBy p fault x = .ok (t, r) ↔ x = .ok (t, r) ∧ p r = true := by
  unfold closedBy
  split
  · split
    · rename_i hp
      simp only [Except.ok.injEq, Prod.mk.injEq, iff_self_and, and_imp]
      rintro rfl rfl
      exact hp
    · rename_i hp
      simp only [reduceCtorEq, Except.ok.injEq, Prod.mk.injEq, false_iff]
      rintro ⟨⟨rfl, rfl⟩, h⟩
      exact hp h
  · simp

/-- A name takes text unless the line goes on with a separator at once. -/
theorem length_of_readName {s t r : List Char} (h : readName s = .ok (t, r)) :
    r.length < s.length ∨ (r = s ∧ atLineEnd s = true) ∨ (r = s ∧ s.head? = some ':') := by
  unfold readName at h
  split at h
  · have := length_of_readVerbatim (closedBy_eq_ok.1 h).1
    simp only [List.length_cons]
    omega
  · have := length_of_readQuoted (closedBy_eq_ok.1 h).1
    simp only [List.length_cons]
    omega
  · have := length_of_readQuoted (closedBy_eq_ok.1 h).1
    simp only [List.length_cons]
    omega
  · simp only [Except.ok.injEq, Prod.mk.injEq] at h
    cases s with
    | nil => simp [← h.2]
    | cons c s =>
      by_cases hc : isBare c = true
      · left
        have := length_dropWhile_le isBare s
        simp only [← h.2, List.dropWhile_cons, hc, if_true, List.length_cons]
        omega
      · have hr : r = c :: s := by simp [← h.2, hc]
        have : c = ':' ∨ isBreak c = true := by
          by_cases h : c = ':' <;> simp_all [isBare]
        rcases this with rfl | hb <;> simp_all

theorem length_of_readField {s r : List Char} {f : Field} (h : readField s = .ok (f, r)) :
    r.length ≤ s.length := by
  unfold readField at h
  split at h
  · obtain ⟨⟨t, r'⟩, hx, h⟩ := bind_eq_ok.1 h
    have := length_of_readVerbatim (closedBy_eq_ok.1 hx).1
    simp only [pure_eq_ok, Prod.mk.injEq] at h
    simp only [List.length_cons, ← h.2]
    omega
  · obtain ⟨⟨t, r'⟩, hx, h⟩ := bind_eq_ok.1 h
    have := length_of_readQuoted (closedBy_eq_ok.1 hx).1
    simp only [pure_eq_ok, Prod.mk.injEq] at h
    simp only [List.length_cons, ← h.2]
    omega
  · obtain ⟨⟨t, r'⟩, hx, h⟩ := bind_eq_ok.1 h
    have := length_of_readQuoted (closedBy_eq_ok.1 hx).1
    simp only [pure_eq_ok, Prod.mk.injEq] at h
    simp only [List.length_cons, ← h.2]
    omega
  · have := length_dropWhile_le isBare s
    dsimp only at h
    split at h <;> simp_all

theorem length_of_scanTypedValue {s r : List Char} {ls : List Lexeme}
    (h : scanTypedValue s = .ok (ls, r)) : r.length ≤ s.length := by
  unfold scanTypedValue at h
  split at h
  · obtain ⟨⟨f, r'⟩, hf, h⟩ := bind_eq_ok.1 h
    have := length_of_readField hf
    split at h
    · simp at h
    · simp_all
      omega
  · simp_all

/-- Behind a separator there is always something to take. -/
theorem length_of_scanValue {s r : List Char} {ls : List Lexeme}
    (h : scanValue s = .ok (ls, r)) :
    r.length < s.length ∨ (r = s ∧ s.head? ≠ some ':') := by
  unfold scanValue at h
  split at h
  · obtain ⟨⟨f, r'⟩, hf, h⟩ := bind_eq_ok.1 h
    have := length_of_readField hf
    left
    cases f with
    | tag t =>
      obtain ⟨⟨ls', r''⟩, hv, h⟩ := bind_eq_ok.1 h
      have := length_of_scanTypedValue hv
      simp only [pure_eq_ok, Prod.mk.injEq] at h
      simp only [List.length_cons, ← h.2]
      omega
    | text t =>
      simp only [pure_eq_ok, Prod.mk.injEq] at h
      simp only [List.length_cons, ← h.2]
      omega
  · rename_i hs
    simp only [Except.ok.injEq, Prod.mk.injEq] at h
    refine .inr ⟨h.2.symm, ?_⟩
    cases s with
    | nil => simp
    | cons c s => simpa using fun hc => hs s (by rw [hc])

theorem length_of_nextLine {s r : List Char} (h : nextLine s = .ok r) :
    r.length ≤ s.length := by
  unfold nextLine at h
  split at h
  · simp_all
  · exact Nat.le_of_lt (length_of_breakLine h)

theorem length_of_scanLineEnd {s r : List Char} {ls : List Lexeme}
    (h : scanLineEnd s = .ok (ls, r)) : r.length ≤ s.length := by
  obtain ⟨r', hr, h⟩ := bind_eq_ok.1 h
  obtain ⟨_, rfl⟩ := Prod.mk.inj (pure_eq_ok.1 h)
  exact length_of_nextLine hr

theorem length_of_scanEntry {s r : List Char} {ls : List Lexeme}
    (h : scanEntry s = .ok (ls, r)) (hs : atLineEnd s = false) : r.length < s.length := by
  obtain ⟨⟨t, r₁⟩, hn, h⟩ := bind_eq_ok.1 h
  obtain ⟨⟨vs, r₂⟩, hv, h⟩ := bind_eq_ok.1 h
  obtain ⟨⟨es, r₃⟩, he, h⟩ := bind_eq_ok.1 h
  obtain ⟨_, rfl⟩ := Prod.mk.inj (pure_eq_ok.1 h)
  have h₁ := length_of_readName hn
  have h₂ := length_of_scanValue hv
  have h₃ := length_of_scanLineEnd he
  rcases h₁ with h₁ | ⟨_, h₁⟩ | ⟨rfl, h₁⟩
  · rcases h₂ with h₂ | ⟨rfl, _⟩ <;> omega
  · simp_all
  · rcases h₂ with h₂ | ⟨_, h₂⟩
    · omega
    · exact absurd h₁ h₂

theorem length_of_readComment {s t r : List Char} (h : readComment s = .ok (t, r)) :
    r.length < s.length := by
  fun_induction readComment s generalizing t with
  | case1 => simp at h
  | case2 s =>
    simp only [Except.ok.injEq, Prod.mk.injEq] at h
    simp only [← h.2, List.length_cons]
    omega
  | case3 c s _ ih =>
    obtain ⟨v, hv, _⟩ := Reading.prepend_eq_ok h
    have := ih hv
    simp only [List.length_cons]
    omega

theorem length_of_closeComment {s t r : List Char}
    (h : closeComment (readComment s) = .ok (t, r)) : r.length < s.length := by
  unfold closeComment at h
  split at h
  · rename_i t' r' hc
    obtain ⟨_, rfl⟩ := Prod.mk.inj (Except.ok.inj (closedBy_eq_ok.1 h).1)
    exact Nat.lt_of_le_of_lt (length_dropWhile_le _ _) (length_of_readComment hc)
  · simp at h

theorem length_of_finishComment {indent ls : List Lexeme} {k : Kind} {s t r r' : List Char}
    (h : finishComment indent k s t r = .ok (ls, r')) : r'.length ≤ r.length := by
  obtain ⟨next, hn, h⟩ := bind_eq_ok.1 h
  obtain ⟨_, rfl⟩ := Prod.mk.inj (pure_eq_ok.1 h)
  exact length_of_nextLine hn

theorem length_of_scanContent {indent ls : List Lexeme} {s r : List Char}
    (h : scanContent indent s = .ok (ls, r)) (hs : atLineEnd s = false) :
    r.length < s.length := by
  unfold scanContent at h
  split at h
  · obtain ⟨⟨raw, r₁⟩, hc, h⟩ := bind_eq_ok.1 h
    have h₁ := length_of_closeComment hc
    have h₂ := length_of_finishComment h
    simp only [List.length_cons]
    omega
  · rename_i s'
    have h₁ := length_of_finishComment h
    have h₂ := length_dropWhile_le (!isBreak ·) s'
    simp only [List.length_cons]
    omega
  · obtain ⟨⟨ls', r₁⟩, he, h⟩ := bind_eq_ok.1 h
    have := length_of_scanEntry he hs
    simp_all

theorem length_of_scanLine {s r : List Char} {ls : List Lexeme}
    (h : scanLine s = .ok (ls, r)) (hs : s ≠ []) : r.length < s.length := by
  unfold scanLine at h
  have hb := length_dropWhile_le (· == ' ') s
  dsimp only at h
  split at h
  · simp only [Except.ok.injEq, Prod.mk.injEq] at h
    simpa [← h.2, List.length_pos_iff] using hs
  · rename_i c t hc
    rw [hc] at hb
    split at h
    · obtain ⟨r', hr, h⟩ := bind_eq_ok.1 h
      have := length_of_breakLine (hc ▸ hr)
      simp_all
      omega
    · rename_i hcb
      split at h
      · simp at h
      · rw [hc] at h
        have := length_of_scanContent h (by simpa using hcb)
        omega

def scan (s : List Char) : Except Halt (List Lexeme) :=
  match s with
  | [] => .ok []
  | c :: s' =>
    match _h : scanLine (c :: s') with
    | .error e => .error e
    | .ok (ls, r) => do
      let rest ← scan r
      return ls ++ rest
termination_by s.length
decreasing_by exact length_of_scanLine _h (by simp)

def Lexeme.token (source : List Char) (l : Lexeme) : Token where
  kind := l.kind
  text := String.ofList l.text
  position := Position.after (before source l.start)

/-- Report a fault at the place where the source was read up to. -/
def haltError (source : List Char) (h : Halt) : Error :=
  .syntaxError h.fault (Position.after (before source h.rest))
    (String.ofList (context (before source h.rest)))

def tokenizeChars (source : List Char) : Except Error (List Token) :=
  match scan source with
  | .ok ls => .ok (ls.map (·.token source))
  | .error h => .error (haltError source h)

end Outline.Token

namespace Outline

def tokenize (source : String) : Except Error (List Token) := Token.tokenizeChars source.toList

end Outline

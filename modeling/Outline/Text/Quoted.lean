import Outline.Error
import Outline.Number.Digits
import Outline.Text.Lines

/-!
# String literals

A single-line literal `"…"` or `'…'` knows backslash escapes and ends on its own line. A
verbatim literal `@"…"` may span lines, writes a quote twice and has no escapes. Each reader
starts behind the opening quote and gives back the content and the text behind the closing
quote. A reader that stops early reports the cause and what was left to read.
-/

namespace Outline.Text

/-- A fault together with the text that was still unread when it was met. -/
structure Halt where
  fault : SyntaxFault
  rest : List Char
  deriving DecidableEq, Repr

abbrev Reading := Except Halt (List Char × List Char)

/-- Consume one line break: a line feed, alone or after a carriage return. -/
def breakLine : List Char → Except Halt (List Char)
  | '\n' :: s => .ok s
  | '\r' :: '\n' :: s => .ok s
  | '\r' :: s => .error ⟨.loneCarriageReturn, '\r' :: s⟩
  | s => .error ⟨.expectedLineEnd, s⟩

theorem length_of_breakLine {s r : List Char} (h : breakLine s = .ok r) : r.length < s.length := by
  unfold breakLine at h
  split at h
  · simp [← Except.ok.inj h]
  · simp only [← Except.ok.inj h, List.length_cons]
    omega
  · simp at h
  · simp at h

/-- A hexadecimal number; a plus sign may stand in front of its digits. -/
def hexNumber? (s : List Char) : Option Nat :=
  match s with
  | '+' :: digits => Number.ofDigits? 16 digits
  | digits => Number.ofDigits? 16 digits

def scalar? (n : Nat) : Option Char := if n.isValidChar then some (Char.ofNat n) else none

/-- The character named by a four-character code. -/
def code? (digits : List Char) : Option Char :=
  if digits.length = 4 then (hexNumber? digits).bind scalar? else none

/-- The characters that stand for one character after a backslash. -/
def escape? : Char → Option Char
  | '"' => some '"'
  | '\'' => some '\''
  | '\\' => some '\\'
  | 'a' => some '\x07'
  | 'b' => some '\x08'
  | 'f' => some '\x0c'
  | 't' => some '\t'
  | 'v' => some '\x0b'
  | 'n' => some '\n'
  | _ => none

/-- What the text behind a backslash stands for: one character, the pair written `\r\n`, or
the character whose four-digit code follows an `x`. -/
def readEscape : List Char → Reading
  | [] => .error ⟨.endInEscape, []⟩
  | c :: s =>
    match escape? c with
    | some e => .ok ([e], s)
    | none =>
      if c = 'r' then
        match s with
        | '\\' :: 'n' :: r => .ok (crlf, r)
        | _ => .error ⟨.returnEscape, s⟩
      else if c = 'x' then
        match code? (s.take 4) with
        | some e => .ok ([e], s.drop 4)
        | none => .error ⟨.badCode (String.ofList (s.take 4)), s⟩
      else .error ⟨.badEscape c, s⟩

theorem length_of_readEscape {s t r : List Char} (h : readEscape s = .ok (t, r)) :
    r.length < s.length := by
  unfold readEscape at h
  split at h
  · simp at h
  · split at h
    · simp only [Except.ok.injEq, Prod.mk.injEq] at h
      simp [h.2]
    · split at h
      · split at h
        · simp only [Except.ok.injEq, Prod.mk.injEq] at h
          simp only [List.length_cons, h.2]
          omega
        · simp at h
      · split at h
        · split at h
          · simp only [Except.ok.injEq, Prod.mk.injEq] at h
            simp only [List.length_cons, ← h.2, List.length_drop]
            omega
          · simp at h
        · simp at h

def Reading.prepend (t : List Char) : Reading → Reading
  | .ok (u, r) => .ok (t ++ u, r)
  | .error e => .error e

@[simp] theorem Reading.prepend_ok (t u r : List Char) :
    Reading.prepend t (.ok (u, r)) = .ok (t ++ u, r) := rfl

/-- The body of a single-line literal that ends at the quote `q`. -/
def readQuoted (q : Char) (s : List Char) : Reading :=
  match s with
  | [] => .error ⟨.unclosedString, []⟩
  | c :: r =>
    if c = q then .ok ([], r)
    else if c = '\\' then
      match _h : readEscape r with
      | .error e => .error e
      | .ok (t, r') => (readQuoted q r').prepend t
    else if isBreak c then .error ⟨.breakInString, s⟩
    else (readQuoted q r).prepend [c]
termination_by s.length
decreasing_by
  · have := length_of_readEscape _h
    simp only [List.length_cons]
    omega
  · simp

/-- The body of a verbatim literal. Line breaks of either style become the canonical one. -/
def readVerbatim : List Char → Reading
  | [] => .error ⟨.unclosedString, []⟩
  | '"' :: '"' :: s => (readVerbatim s).prepend ['"']
  | '"' :: s => .ok ([], s)
  | '\n' :: s => (readVerbatim s).prepend crlf
  | '\r' :: '\n' :: s => (readVerbatim s).prepend crlf
  | '\r' :: s => .error ⟨.loneCarriageReturn, '\r' :: s⟩
  | c :: s => (readVerbatim s).prepend [c]

theorem Reading.prepend_eq_ok {t u r : List Char} {x : Reading}
    (h : Reading.prepend t x = .ok (u, r)) : ∃ v, x = .ok (v, r) ∧ u = t ++ v := by
  match x, h with
  | .ok (v, _), h =>
    simp only [Reading.prepend_ok, Except.ok.injEq, Prod.mk.injEq] at h
    exact ⟨v, by rw [h.2], h.1.symm⟩

theorem length_of_readQuoted {q : Char} {s t r : List Char} (h : readQuoted q s = .ok (t, r)) :
    r.length < s.length := by
  fun_induction readQuoted q s generalizing t with
  | case1 => simp at h
  | case2 s => simp_all
  | case3 => simp_all
  | case4 s t r he hq ih =>
    obtain ⟨v, hv, _⟩ := Reading.prepend_eq_ok h
    have := ih hv
    have := length_of_readEscape he
    simp only [List.length_cons]
    omega
  | case5 => simp at h
  | case6 c s hq hb hl ih =>
    obtain ⟨v, hv, _⟩ := Reading.prepend_eq_ok h
    have := ih hv
    simp only [List.length_cons]
    omega

theorem length_of_readVerbatim {s t r : List Char} (h : readVerbatim s = .ok (t, r)) :
    r.length < s.length := by
  fun_induction readVerbatim s generalizing t with
  | case1 => simp at h
  | case3 => simp_all
  | case6 => simp at h
  | case2 _ ih | case4 _ ih | case5 _ ih | case7 _ _ _ _ _ _ _ ih =>
    obtain ⟨v, hv, _⟩ := Reading.prepend_eq_ok h
    have := ih hv
    simp only [List.length_cons]
    omega

end Outline.Text

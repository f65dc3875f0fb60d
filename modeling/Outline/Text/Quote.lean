import Outline.Text.Blank
import Outline.Text.Lines

/-!
# Writing texts so that they read back

A text is written bare where that reads back, verbatim if all its line breaks are canonical,
and as a single-line literal otherwise.
-/

namespace Outline.Text

/-- Every line break in the text is canonical. -/
def canonicalBreaks : List Char → Bool
  | [] => true
  | '\r' :: '\n' :: s => canonicalBreaks s
  | c :: s => !isBreak c && canonicalBreaks s

def doubleQuotes (s : List Char) : List Char :=
  s.flatMap fun c => if c = '"' then ['"', '"'] else [c]

def verbatim (s : List Char) : List Char := '@' :: '"' :: doubleQuotes s ++ ['"']

def escapeChar (c : Char) : List Char :=
  if c = '\\' then ['\\', '\\']
  else if c = '"' then ['\\', '"']
  else if c = '\n' then ['\\', 'n']
  else if c = '\r' then ['\\', 'x', '0', '0', '0', 'D']
  else [c]

def quoted (s : List Char) : List Char := '"' :: s.flatMap escapeChar ++ ['"']

/-- The starts of texts that would be read as something else. -/
def startsSpecial : List Char → Bool
  | '\'' :: _ => true
  | '/' :: '/' :: _ => true
  | '/' :: '*' :: _ => true
  | '@' :: '"' :: _ => true
  | _ => false

/-- The bare text would not read back. -/
def needsQuotes (value : Bool) (s : List Char) : Bool :=
  s.any (fun c => c == ':' || c == '"' || isBreak c) ||
    s.head?.any isBlank || s.getLast?.any isBlank || startsSpecial s ||
    (value && s.contains '\'')

/-- The written form of a name, or of a value; values are also quoted if they hold an
apostrophe. -/
def quote (value : Bool) (s : List Char) : List Char :=
  if s.contains '\n' && canonicalBreaks s then verbatim s
  else if needsQuotes value s then quoted s
  else s

end Outline.Text

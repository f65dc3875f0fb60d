/-!
# Lines of a text

A line feed ends a line, and one carriage return right before it belongs to the break. The
canonical break is the pair of both.
-/

namespace Outline.Text

/-- The canonical line break. -/
def crlf : List Char := ['\r', '\n']

@[simp] theorem crlf_length : crlf.length = 2 := rfl

/-- The character that starts a line break, or would if it were paired. -/
def isBreak (c : Char) : Bool := c == '\r' || c == '\n'

/-- No more text on this line. -/
def atLineEnd : List Char → Bool
  | [] => true
  | c :: _ => isBreak c

@[simp] theorem atLineEnd_nil : atLineEnd [] = true := rfl
@[simp] theorem atLineEnd_cons (c : Char) (s : List Char) : atLineEnd (c :: s) = isBreak c := rfl

/-- Drop one carriage return from the end of a finished line. -/
def dropReturn (line : List Char) : List Char :=
  if line.getLast? = some '\r' then line.dropLast else line

/-- Collects the current line in `line`; text after the last line feed is a line only if
it is not empty, and keeps its carriage return. -/
def linesFrom (line : List Char) : List Char → List (List Char)
  | [] => if line.isEmpty then [] else [line]
  | c :: s =>
    if c = '\n' then dropReturn line :: linesFrom [] s else linesFrom (line ++ [c]) s

def lines (s : List Char) : List (List Char) := linesFrom [] s

@[simp] theorem lines_nil : lines [] = [] := rfl

theorem linesFrom_append_lineFeed (line s : List Char) {l : List Char} (h : '\n' ∉ l) :
    linesFrom line (l ++ '\n' :: s) = dropReturn (line ++ l) :: linesFrom [] s := by
  induction l generalizing line with
  | nil => simp [linesFrom]
  | cons c l ih =>
    simp only [List.mem_cons, not_or] at h
    rw [List.cons_append, linesFrom, if_neg (Ne.symm h.1), ih (line ++ [c]) h.2,
      List.append_assoc, List.singleton_append]

theorem lines_append_lineFeed (s : List Char) {l : List Char} (h : '\n' ∉ l) :
    lines (l ++ '\n' :: s) = dropReturn l :: lines s :=
  linesFrom_append_lineFeed [] s h

def joinLines (ls : List (List Char)) : List Char := List.intercalate crlf ls

@[simp] theorem joinLines_nil : joinLines [] = [] := rfl

end Outline.Text

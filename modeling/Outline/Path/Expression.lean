import Outline.Path.Step
import Outline.Token.Scan

/-!
# Path expressions

Segments divided by slashes. A double quote at the start of a segment opens a string literal,
so that a segment may hold slashes; what follows the literal still belongs to the segment.
-/

namespace Outline

structure Expression where
  steps : List Step
  deriving DecidableEq, Repr

namespace Expression

open Text

/-- The segments of `s`, the first of which goes on from `current`. -/
def segmentsFrom (current : List Char) (s : List Char) : Except Error (List (List Char)) :=
  match s with
  | [] => .ok [current]
  | c :: r =>
    if c = '/' then (segmentsFrom [] r).map (current :: ·)
    else if c = '"' ∧ current = [] then
      match _h : readQuoted '"' r with
      | .ok (t, r') => segmentsFrom t r'
      | .error e => .error (Token.haltError s e)
    else segmentsFrom (current ++ [c]) r
termination_by s.length
decreasing_by
  · simp
  · have := length_of_readQuoted _h
    simp only [List.length_cons]
    omega
  · simp

def segments (s : List Char) : Except Error (List (List Char)) := segmentsFrom [] s

def parseChars (s : List Char) : Except Error Expression := do
  let parts ← segments s
  return ⟨← parts.mapM Step.parse⟩

def parse (source : String) : Except Error Expression := parseChars source.toList

/-- Backslashes and quotes are escaped inside a quoted segment. -/
def escapeSegment (s : List Char) : List Char :=
  s.flatMap fun c => if c = '\\' ∨ c = '"' then ['\\', c] else [c]

/-- A segment that holds a slash or starts with a quote is written as a literal. -/
def segmentText (s : List Char) : List Char :=
  if s.contains '/' || s.head? == some '"' then '"' :: escapeSegment s ++ ['"'] else s

def chars (e : Expression) : List Char :=
  List.intercalate ['/'] (e.steps.map fun s => segmentText s.chars)

def text (e : Expression) : String := String.ofList e.chars

end Expression
end Outline

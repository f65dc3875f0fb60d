import Outline.Error

/-!
# Tokens

The pieces of one line, in order: indentation, then a comment, or a name with its optional
type and value, then the end of the line.
-/

namespace Outline

namespace Token

inductive Kind
  | name
  | separator
  | type
  | value
  | space
  | lineBreak
  | lineComment
  | blockComment
  deriving DecidableEq, Repr

end Token

structure Token where
  kind : Token.Kind
  text : String
  /-- Where the token starts. -/
  position : Position
  deriving DecidableEq, Repr

namespace Token

def Kind.isComment : Kind → Bool
  | lineComment | blockComment => true
  | _ => false

def isComment (t : Token) : Bool := t.kind.isComment

def display (t : Token) : String :=
  match t.kind with
  | .name | .type | .value | .space => t.text
  | .separator => ":"
  | .lineBreak => "\\r\\n"
  | .lineComment => "// " ++ t.text
  | .blockComment => "/* " ++ t.text ++ " */"

end Token
end Outline

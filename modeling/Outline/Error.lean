import Outline.Text.Position

/-!
# What can go wrong

Every failure is a cause with its data; the wording stands in one function per cause type.
-/

namespace Outline

/-- Why a text is not an outline. -/
inductive SyntaxFault
  | loneCarriageReturn
  | expectedLineEnd
  | indentation (spaces : Nat)
  | unclosedComment
  | textAfterComment
  | textAfterName
  | textAfterValue
  | secondSeparator
  | unclosedString
  | breakInString
  | endInEscape
  | returnEscape
  | badCode (digits : String)
  | badEscape (c : Char)
  | commentWithChildren
  | levelJump (level deeper : Nat)
  | noOwner
  | leavesDocument
  | invalidUtf8
  deriving DecidableEq, Repr

def SyntaxFault.text : SyntaxFault → String
  | loneCarriageReturn => "Carriage return without a matching line feed"
  | expectedLineEnd => "Expected end of line"
  | indentation n => "Indentation of " ++ toString n ++ " spaces is not a multiple of 3"
  | unclosedComment => "Block comment not closed before end of input"
  | textAfterComment => "Unexpected characters after end of block comment"
  | textAfterName => "Garbage characters after quoted name"
  | textAfterValue => "Garbage characters after quoted value"
  | secondSeparator => "Unexpected ':' after value, quote values containing ':'"
  | unclosedString => "String literal not closed before end of input"
  | breakInString => "Unexpected line break in string literal"
  | endInEscape => "End of input in escape sequence"
  | returnEscape => "\\r escape must be followed by \\n"
  | badCode digits => "Invalid \\x escape '" ++ digits ++ "'"
  | badEscape c => "Invalid escape sequence '\\" ++ String.singleton c ++ "'"
  | commentWithChildren => "A comment cannot have children"
  | levelJump level deeper =>
    "Indentation jumps from level " ++ toString level ++ " to level " ++ toString deeper
  | noOwner => "Indented line has no node to belong to"
  | leavesDocument => "Indentation leaves the document"
  | invalidUtf8 => "Invalid UTF-8 in input"

/-- Why a literal does not decode under its tag. -/
inductive Reason
  | emptyInteger
  | invalidDigit
  | tooLarge
  | tooSmall
  | emptyFloat
  | invalidFloat
  | notOneCharacter
  | outOfRange
  | malformed
  | stated (text : String)
  deriving DecidableEq, Repr

def Reason.text : Reason → String
  | emptyInteger => "cannot parse integer from empty string"
  | invalidDigit => "invalid digit found in string"
  | tooLarge => "number too large to fit in target type"
  | tooSmall => "number too small to fit in target type"
  | emptyFloat => "cannot parse float from empty string"
  | invalidFloat => "invalid float literal"
  | notOneCharacter => "expected exactly one character"
  | outOfRange => "out of range"
  | malformed => "malformed literal"
  | stated text => text

inductive Error
  /-- Malformed outline text; `context` is the tail of what was read before the fault. -/
  | syntaxError (fault : SyntaxFault) (position : Position) (context : String)
  /-- No reader is registered for the tag, or, in a strict registry, no writer for the type. -/
  | unknownType (tag : String)
  | invalidValue (tag value : String) (reason : Reason)
  | typeMismatch (expected found : String)
  /-- An expression that may yield at most one node yielded more. -/
  | multipleResults (expression : String)
  | notANode (name : String)
  /-- Following expressions led back to a node that is already being followed. -/
  | circularExpression (expression : String)
  | notAnExpression (name : String)
  | extrapolationOutOfRange (index : Nat)
  | invalidIterator (segment : String)
  deriving DecidableEq, Repr

def Error.message : Error → String
  | syntaxError fault position context =>
    "Syntax error at " ++ position.describe ++ ": " ++ fault.text ++ "\nafter: " ++ context
  | unknownType tag => "Unknown type declaration '" ++ tag ++ "'"
  | invalidValue tag value reason =>
    "'" ++ value ++ "' is not a valid " ++ tag ++ ": " ++ reason.text
  | typeMismatch expected found =>
    "Type mismatch: cannot read " ++ found ++ " as " ++ expected
  | multipleResults expression =>
    "Expression '" ++ expression ++ "' yielded multiple results when maximum one was expected"
  | notANode name => "Cannot dereference '" ++ name ++ "', its value is not a node"
  | circularExpression expression => "Expression '" ++ expression ++ "' refers back to itself"
  | notAnExpression name => "Value of '" ++ name ++ "' is not an expression"
  | extrapolationOutOfRange index =>
    "Extrapolation \x7b" ++ toString index ++ "\x7d refers to a child that does not exist"
  | invalidIterator segment => "Invalid iterator '" ++ segment ++ "'"

end Outline

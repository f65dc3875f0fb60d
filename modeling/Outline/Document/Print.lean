import Outline.Document.Registry
import Outline.Text.Quote

/-!
# From a tree to its canonical text

One line per node, three spaces per level. A value is written with its tag unless it is a
string. Nested trees are written as the text of their own documents, quoted as a value. The
depth of printing is bounded by the number of nodes.
-/

namespace Outline.Document

open Text

def indent (level : Nat) : List Char := List.replicate (3 * level) ' '

/-- A node without name and value is written as an empty literal. -/
def nameText (name : String) (value : Option Value) : List Char :=
  if name.isEmpty && value.isNone then ['"', '"'] else quote false name.toList

/-- A value behind its separator, given its tag and text. -/
def valueText (tag text : String) : List Char :=
  let tagText := if tag.isEmpty || tag == "string" then [] else tag.toList ++ [':']
  let body := if text.isEmpty && tag != "string" then ['"', '"'] else quote true text.toList
  ':' :: tagText ++ body

/-- A comment on its own line or lines, with a blank line in front of it. -/
def commentText (level : Nat) (text : List Char) : List Char :=
  let full := (lines text).filter fun line => !(trim line).isEmpty
  crlf ++ indent level ++
    if full.length ≤ 1 then ['/', '/', ' '] ++ trim text
    else
      ['/', '*'] ++ crlf ++
        full.flatMap (fun line => indent level ++ [' ', '*', ' '] ++ trimEnd line ++ crlf) ++
        indent level ++ [' ', '*', '/']

/-- The line or lines of one node, without its children. -/
def lineText (describe : Value → String × String) (comments : Bool) (level : Nat)
    (name : String) (value : Option Value) : List Char :=
  if comments && name == commentName then
    commentText level ((value.map fun v => (describe v).2.toList).getD [])
  else
    indent level ++ nameText name value ++
      (value.map fun v =>
        let (tag, text) := describe v
        valueText tag text).getD []

/-- Print trees that are at most `depth` nodes deep, nested trees counted. -/
def printTree (r : Registry) (f : Forest) :
    (depth : Nat) → (comments : Bool) → (level : Nat) → NodeId → List Char
  | 0, _, _, _ => []
  | depth + 1, comments, level, id =>
    let nested (container : NodeId) : String :=
      String.ofList ((f.children container).flatMap (printTree r f depth false 0))
    lineText (r.describeWith nested) comments level (f.name id) (f.value id) ++ crlf ++
      (f.children id).flatMap (printTree r f depth comments (level + 1))

/-- The given nodes at level zero with all that is below them. -/
def printNodes (r : Registry) (f : Forest) (comments : Bool) (nodes : List NodeId) : String :=
  String.ofList (nodes.flatMap (printTree r f f.size comments 0))

def print (r : Registry) (f : Forest) (comments : Bool) : String :=
  printNodes r f comments (f.children Forest.root)

/-- Tag and text of a value, never failing. -/
def describe (r : Registry) (f : Forest) (value : Value) : String × String :=
  r.describeWith (fun container => printNodes r f false (f.children container)) value

/-- Tag and text of a value; a strict registry refuses values of unknown types. -/
def write (r : Registry) (f : Forest) (value : Value) : Except Error (String × String) :=
  match r.lookup (fun container => printNodes r f false (f.children container)) value with
  | some found => .ok found
  | none =>
    if r.strict then .error (.unknownType value.type.name) else .ok (Registry.fallback value)

end Outline.Document

import Outline.Error
import Outline.Number.Integer
import Outline.Text.Blank

/-!
# Steps of a path

One segment of a path expression. A step maps a list of nodes to a list of nodes; most
segments that mean nothing else keep the nodes of that name.
-/

namespace Outline

inductive Step
  | children
  /-- The nested tree that each node holds as its value. -/
  | dereference
  /-- The sibling before each node, or the last one. -/
  | previous
  /-- The sibling behind each node, or the first one. -/
  | next
  /-- The parents, each once. -/
  | parent
  /-- The topmost ancestor of the first node. -/
  | root
  | descendants
  /-- The nodes named like the value of a child of the identity node. -/
  | extrapolation (index : Nat)
  | valueEquals (literal : String)
  | subscript (start count : Nat)
  /-- The closest older sibling or ancestor of the first node with the given name. -/
  | ancestor (name : String)
  /-- The nodes with a name that would mean something else if it were not escaped. -/
  | escaped (name : String)
  | child (index : Nat)
  | named (name : String)
  deriving DecidableEq, Repr

namespace Step

/-- The largest index or count. -/
def indexLimit : Int := Nat.pow 2 64 - 1

def readIndex (s : List Char) : Option Nat :=
  match Integer.read 10 0 indexLimit s with
  | .ok n => some n.toNat
  | .error _ => none

/-- An index among blanks, and the text behind them. -/
def readPadded (s : List Char) : Option (Nat × List Char) := do
  let s := Text.trimStart s
  let n ← readIndex (s.takeWhile Number.isDigit)
  return (n, Text.trimStart (s.dropWhile Number.isDigit))

/-- The inside of braces, closing brace included. -/
def readExtrapolation (s : List Char) : Option Step := do
  match ← readPadded s with
  | (n, ['\x7d']) => return .extrapolation n
  | _ => none

/-- The inside of brackets, closing bracket included. -/
def readSubscript (s : List Char) : Option Step := do
  match ← readPadded s with
  | (start, ',' :: r) =>
    match ← readPadded r with
    | (count, [']']) => return .subscript start count
    | _ => none
  | _ => none

/-- The segments that stand for one step each. -/
def keyword? : List Char → Option Step
  | ['*'] => some .children
  | ['#'] => some .dereference
  | ['-'] => some .previous
  | ['+'] => some .next
  | ['.'] => some .parent
  | ['.', '.'] => some .root
  | ['*', '*'] => some .descendants
  | _ => none

/-- Segments told apart by their first character. -/
def parseParametrized (segment : List Char) : Except Error Step :=
  let required (x : Option Step) : Except Error Step :=
    match x with
    | some step => .ok step
    | none => .error (.invalidIterator (String.ofList segment))
  match segment with
  | '\\' :: name => .ok (.escaped (String.ofList name))
  | '\x7b' :: s => required (readExtrapolation s)
  | '=' :: literal => .ok (.valueEquals (String.ofList literal))
  | '[' :: s => required (readSubscript s)
  | '@' :: name => .ok (.ancestor (String.ofList name))
  | s =>
    match readIndex s with
    | some n => .ok (.child n)
    | none => .ok (.named (String.ofList s))

/-- Compile one segment. Only braces and brackets can be malformed. -/
def parse (segment : List Char) : Except Error Step :=
  match keyword? segment with
  | some step => .ok step
  | none => parseParametrized segment

/-- The segment that compiles to a step. -/
def chars : Step → List Char
  | children => ['*']
  | dereference => ['#']
  | previous => ['-']
  | next => ['+']
  | parent => ['.']
  | root => ['.', '.']
  | descendants => ['*', '*']
  | extrapolation n => '\x7b' :: Number.natText n ++ ['\x7d']
  | valueEquals literal => '=' :: literal.toList
  | subscript start count => '[' :: Number.natText start ++ ',' :: Number.natText count ++ [']']
  | ancestor name => '@' :: name.toList
  | escaped name => '\\' :: name.toList
  | child n => Number.natText n
  | named name => name.toList

def text (s : Step) : String := String.ofList s.chars

end Step
end Outline

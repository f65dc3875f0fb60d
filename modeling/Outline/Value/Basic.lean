import Outline.Encoding.Base64
import Outline.Encoding.Guid
import Outline.Number.Decimal
import Outline.Number.Integer
import Outline.Path.Expression
import Outline.Time.Duration
import Outline.Time.Instant

/-!
# Values

What a node may carry: a scalar of a built-in kind, a path expression, a nested tree of the
same forest, or a value of a type that the built-in kinds know nothing about.
-/

namespace Outline

/-- A node is named by the place of its slot in its forest. -/
abbrev NodeId := Nat

namespace Value

inductive Kind
  | string
  | bool
  | integer (kind : Integer.Kind)
  | decimal
  | double
  | float
  | char
  | bytes
  | date
  | time
  | guid
  | expression
  | node
  deriving DecidableEq, Repr

def Kind.tag : Kind → String
  | string => "string"
  | bool => "bool"
  | integer k => k.tag
  | decimal => "decimal"
  | double => "double"
  | float => "float"
  | char => "char"
  | bytes => "bytes"
  | date => "date"
  | time => "time"
  | guid => "guid"
  | expression => "x"
  | node => "node"

/-- The type that a registry looks up to write a value: a built-in kind or a named type. -/
inductive TypeKey
  | builtin (kind : Kind)
  | named (name : String)
  deriving DecidableEq, Repr

def TypeKey.name : TypeKey → String
  | builtin k => k.tag
  | named name => name

/-- A value of a foreign type, known by its type and the text it shows. -/
structure Custom where
  type : TypeKey
  display : String
  deriving DecidableEq, Repr

end Value

inductive Value
  | string (text : String)
  | bool (b : Bool)
  | integer (i : Integer)
  | decimal (d : Decimal)
  | double (x : Binary)
  | float (x : Binary)
  | char (c : Char)
  | bytes (bytes : List UInt8)
  | date (i : Instant)
  | time (d : Duration)
  | guid (g : Guid)
  | expression (e : Expression)
  | node (container : NodeId)
  | custom (c : Value.Custom)
  deriving DecidableEq, Repr

namespace Value

def kind? : Value → Option Kind
  | string _ => some .string
  | bool _ => some .bool
  | integer i => some (.integer i.kind)
  | decimal _ => some .decimal
  | double _ => some .double
  | float _ => some .float
  | char _ => some .char
  | bytes _ => some .bytes
  | date _ => some .date
  | time _ => some .time
  | guid _ => some .guid
  | expression _ => some .expression
  | node _ => some .node
  | custom _ => none

def type (v : Value) : TypeKey :=
  match v with
  | custom c => c.type
  | v => .builtin (v.kind?.getD .string)

def hint (v : Value) : String :=
  match v.kind? with
  | some k => k.tag
  | none => "custom"

def boolText (b : Bool) : String := if b then "true" else "false"

/-- The text of a value that can be written without its forest. -/
def text? : Value → Option String
  | string s => some s
  | bool b => some (boolText b)
  | integer i => some i.text
  | decimal d => some d.text
  | double x => some (x.text .double)
  | float x => some (x.text .single)
  | char c => some (String.singleton c)
  | bytes bs => some (Base64.text bs)
  | date i => some i.text
  | time d => some d.text
  | guid g => some g.text
  | expression e => some e.text
  | custom c => some c.display
  | node _ => none

/-- The text of a scalar; a nested tree shows nothing by itself. -/
def display (v : Value) : String := v.text?.getD ""

/-- Equality as a reader of a document sees it: numbers of one kind by value, nested trees by
identity, foreign values by type and text. A NaN equals nothing. -/
def equal : Value → Value → Bool
  | decimal a, decimal b => a.equal b
  | double a, double b => a.equal b
  | float a, float b => a.equal b
  | double _, _ | float _, _ | decimal _, _ => false
  | a, b => a == b

end Value
end Outline

import Outline.Number.Exchange
import Outline.Path.Evaluate
import Outline.Text.Utf8

/-!
# Reading values as native types

A target says how a value is read as an element of a type. Conversions that would lose
something are refused, except that binary numbers are rounded. A missing value can only be
read as an option. Reading may follow expressions: then an expression stands for the value of
the node it leads to.
-/

namespace Outline

namespace Value

def toInt? : Value → Option Int
  | integer i => some i.val
  | decimal d => d.toInt?
  | _ => none

def toDouble? : Value → Option Binary
  | double x => some x
  | float x => some (x.convert .double)
  | decimal d => some d.toDouble
  | value => value.toInt?.map (Binary.ofInt .double)

end Value

structure Target (α : Type) where
  name : String
  read : Value → Except Error α
  /-- What a node without a value reads as. -/
  absent : Except Error α

namespace Target

def mismatch {α : Type} (name : String) (value : Value) : Except Error α :=
  .error (.typeMismatch name value.hint)

def orMismatch {α : Type} (name : String) (value : Value) (x : Option α) : Except Error α :=
  match x with
  | some a => .ok a
  | none => mismatch name value

/-- A target that needs a value. -/
def required {α : Type} (name : String) (read : Value → Except Error α) : Target α :=
  ⟨name, read, .error (.typeMismatch name "null")⟩

/-- The same target, where a missing value reads as nothing. -/
def optional {α : Type} (t : Target α) : Target (Option α) :=
  ⟨t.name, fun v => (t.read v).map some, .ok none⟩

def value : Target Value := required "value" .ok

def string : Target String := required "string" fun v =>
  orMismatch "string" v <|
    match v with
    | .bytes bs => Text.ofBytes? bs
    | v => v.text?

def bool : Target Bool := required "bool" fun v =>
  orMismatch "bool" v <|
    match v with
    | .bool b => some b
    | .string s => if s = "true" then some true else if s = "false" then some false else none
    | _ => none

/-- Integers of a range: text is trimmed and read, numbers have to be whole and in range. -/
def integers (name : String) (lo hi : Int) : Target Int := required name fun v =>
  orMismatch name v <|
    match v with
    | .string s => (Integer.read 10 lo hi (Text.trim s.toList)).toOption
    | v => v.toInt?.filter fun n => lo ≤ n && n ≤ hi

def integer (k : Integer.Kind) : Target Int := integers k.tag k.min k.max

/-- Counts and indices of a 64-bit machine. -/
def size : Target Int := integers "usize" 0 (Nat.pow 2 64 - 1)

def readDouble? : Value → Option Binary
  | .string s => (Binary.parse .double (Text.trim s.toList)).toOption
  | v => v.toDouble?

def double : Target Binary := required "double" fun v => orMismatch "double" v (readDouble? v)

/-- Everything but a float is first read as a double. -/
def float : Target Binary := required "float" fun v =>
  orMismatch "float" v <|
    match v with
    | .float x => some x
    | v => (readDouble? v).map (Binary.convert .single)

def decimal : Target Decimal := required "decimal" fun v =>
  orMismatch "decimal" v <|
    match v with
    | .decimal d => some d
    | .string s => Decimal.parse (Text.trim s.toList)
    | .double x => Decimal.ofBinary? .double x
    | .float x => Decimal.ofBinary? .single x
    | v => v.toInt?.bind Decimal.ofInt?

def char : Target Char := required "char" fun v =>
  orMismatch "char" v <|
    match v with
    | .char c => some c
    | .string s =>
      match s.toList with
      | [c] => some c
      | _ => none
    | _ => none

def bytes : Target (List UInt8) := required "bytes" fun v =>
  orMismatch "bytes" v <|
    match v with
    | .bytes bs => some bs
    | .string s => some (Text.bytesOf s.toList)
    | _ => none

def date : Target Instant := required "date" fun v =>
  match v with
  | .date i => .ok i
  | .string s => Instant.parse s
  | v => mismatch "date" v

def time : Target Duration := required "time" fun v =>
  match v with
  | .time d => .ok d
  | v => mismatch "time" v

def guid : Target Guid := required "guid" fun v =>
  orMismatch "guid" v <|
    match v with
    | .guid g => some g
    | .string s => Guid.parse (Text.trim s.toList)
    | _ => none

def expression : Target Expression := required "x" fun v =>
  match v with
  | .expression e => .ok e
  | .string s => Expression.parse s
  | v => mismatch "x" v

def node : Target NodeId := required "node" fun v =>
  match v with
  | .node container => .ok container
  | v => mismatch "node" v

def get {α : Type} (t : Target α) (f : Forest) (id : NodeId) : Except Error α :=
  match f.value id with
  | some v => t.read v
  | none => t.absent

/-- Follow expressions from `id` on; `followed` are the nodes that led here, and `fuel` more
of them can be followed before one has to repeat. -/
def getFrom {α : Type} (t : Target α) (fallback : α) (w : Path.World) :
    (fuel : Nat) → (followed : List NodeId) → NodeId → Except Error α
  | fuel, followed, id =>
    match w.forest.value id with
    | some (.expression e) =>
      if followed.contains id then .error (.circularExpression e.text)
      else
        match fuel with
        | 0 => .error (.circularExpression e.text)
        | fuel + 1 =>
          match (w.evaluate e id).result with
          | .error error => .error error
          | .ok [] => .ok fallback
          | .ok [single] => getFrom t fallback w fuel (id :: followed) single
          | .ok _ => .error (.multipleResults e.text)
    | _ => t.get w.forest id

/-- The value of a node, following expressions; `fallback` if they lead to no node. -/
def getEx {α : Type} (t : Target α) (fallback : α) (w : Path.World) (id : NodeId) :
    Except Error α :=
  getFrom t fallback w w.forest.size [] id

end Target
end Outline

import Outline.Document.Registry

/-!
# The built-in types

Every built-in kind is read under its tag and written in its own text; `single` is another
tag for reading `float`. A nested document is read into a container of its own and written as
the text of that container's children.
-/

namespace Outline.Registry

/-- Attach tag and raw text to the reason why a literal is refused. -/
def refused {α : Type} (tag raw : String) (x : Except Reason α) : Except Error α :=
  match x with
  | .ok a => .ok a
  | .error reason => .error (.invalidValue tag raw reason)

/-- A literal that needs no forest to be read. -/
def readScalar (kind : Value.Kind) (raw : String) : Except Error Value :=
  let s := raw.toList
  let orMalformed {α : Type} (x : Option α) : Except Error α :=
    refused kind.tag raw (x.elim (.error .malformed) .ok)
  match kind with
  | .string => .ok (.string raw)
  | .bool => .ok (.bool (raw == "true"))
  | .integer k => (refused k.tag raw (Integer.parse k s)).map .integer
  | .decimal => (orMalformed (Decimal.parse s)).map .decimal
  | .double => (refused "double" raw (Binary.parse .double s)).map .double
  | .float => (refused "float" raw (Binary.parse .single s)).map .float
  | .char =>
    match s with
    | [c] => .ok (.char c)
    | _ => .error (.invalidValue "char" raw .notOneCharacter)
  | .bytes => (orMalformed (Base64.decode s)).map .bytes
  | .date => (Instant.parse raw).map .date
  | .time => do
    let ticks ← refused "time" raw (Integer.Kind.long.read s)
    match Duration.ofTicks? ticks with
    | some d => return .time d
    | none => throw (.invalidValue "time" raw .outOfRange)
  | .guid => (orMalformed (Guid.parse s)).map .guid
  | .expression => (Expression.parse raw).map .expression
  | .node => .error (.unknownType kind.tag)

def scalarKinds : List Value.Kind :=
  [.string, .bool, .integer .short, .integer .ushort, .integer .int, .integer .uint,
    .integer .long, .integer .ulong, .decimal, .double, .float, .integer .byte, .char, .bytes,
    .date, .time, .guid, .expression]

def scalarReader (kind : Value.Kind) : Reader := fun _ raw => Build.ofExcept (readScalar kind raw)

def scalarWriter : Writer := fun _ value => value.display

def nodeReader : Reader := fun context raw => do
  return .node (← Document.parseDetached context.convert raw)

def nodeWriter : Writer := fun context value =>
  match value with
  | .node container => context.children container
  | value => value.display

def builtin : Registry where
  readers :=
    (scalarKinds.map fun k => (k.tag, scalarReader k)) ++
      [("single", scalarReader .float), ("node", nodeReader)]
  writers :=
    (scalarKinds.map fun k => (.builtin k, (k.tag, scalarWriter))) ++
      [(.builtin .node, ("node", nodeWriter))]
  strict := false

/-- The same, refusing to write values of unknown types. -/
def strictBuiltin : Registry := { builtin with strict := true }

end Outline.Registry

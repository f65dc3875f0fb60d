import Outline.Document.Build
import Outline.Text.Visible

/-!
# Registries

A registry holds a reader for every tag and a writer for every type. Both tables can be
extended; a new entry replaces the old one under its key, each table on its own. Readers and
writers may call back into the registry, for instance to convert the literals inside a nested
document.
-/

namespace Outline

namespace Registry

/-- What a reader may ask its registry for. -/
structure ReadContext where
  convert : Document.Convert
  tags : List String

structure WriteContext where
  /-- The text of the children of a node. -/
  children : NodeId → String
  tags : List String

/-- Builds a value from the raw text behind a tag. -/
abbrev Reader := ReadContext → String → Build Value

/-- Gives the text that is written behind the tag of a value. -/
abbrev Writer := WriteContext → Value → String

/-- Replace the entry under a key. -/
def insert {α β : Type} [DecidableEq α] (key : α) (entry : β) (table : List (α × β)) :
    List (α × β) :=
  (key, entry) :: table.filter (·.1 ≠ key)

end Registry

structure Registry where
  readers : List (String × Registry.Reader)
  writers : List (Value.TypeKey × (String × Registry.Writer))
  /-- A strict registry refuses to write values of types it does not know. -/
  strict : Bool

namespace Registry

/-- All tags that can be read, sorted. -/
def tags (r : Registry) : List String := (r.readers.map (·.1)).mergeSort (· ≤ ·)

def hasTag (r : Registry) (tag : String) : Bool := r.readers.any (·.1 == tag)

def register (r : Registry) (type : Value.TypeKey) (tag : String) (write : Writer)
    (read : Reader) : Registry where
  readers := insert tag read r.readers
  writers := insert type (tag, write) r.writers
  strict := r.strict

/-- Register a foreign type. Values of its type key that are not foreign are written in their
own text. -/
def registerType (r : Registry) (type : Value.TypeKey) (tag : String)
    (write : Value.Custom → String) (read : String → Except String Value.Custom) : Registry :=
  r.register type tag
    (fun _ value =>
      match value with
      | .custom c => write c
      | value => value.display)
    (fun _ raw =>
      match read raw with
      | .ok c => return .custom c
      | .error reason => throw (.invalidValue tag raw (.stated reason)))

/-- Convert a literal, with calls back into the registry to a given depth. Whoever calls back at
depth zero is told that the tag is unknown. -/
def convertWithin (r : Registry) : Nat → Document.Convert
  | 0, tag, _ => throw (.unknownType tag)
  | depth + 1, tag, raw =>
    match r.readers.lookup tag with
    | some read => read ⟨convertWithin r depth, r.tags⟩ raw
    | none => throw (.unknownType tag)

/-- Convert a literal. A reader may call back, and for the built-in readers and registered types
each literal it then asks for is shorter than its own text, carriage returns not counted: the
length of the text bounds the depth, and the bound is never met. A registered reader that asks
for texts that are not shorter does meet it, and is told that the tag is unknown there, where a
recursion without a bound would go on. -/
def convert (r : Registry) : Document.Convert := fun tag raw =>
  r.convertWithin (raw.length + 1) tag raw

def lookup (r : Registry) (children : NodeId → String) (value : Value) :
    Option (String × String) :=
  (r.writers.lookup value.type).map fun (tag, write) => (tag, write ⟨children, r.tags⟩ value)

/-- Tag and text of a value of an unknown type. -/
def fallback (value : Value) : String × String :=
  ("[" ++ value.type.name ++ "]", value.display)

/-- Tag and text of any value, where `children` writes the children of a node. -/
def describeWith (r : Registry) (children : NodeId → String) (value : Value) : String × String :=
  (r.lookup children value).getD (fallback value)

def debugText (r : Registry) : String :=
  "TypeRegistry \x7b types: [" ++ ", ".intercalate (r.tags.map Text.shown) ++ "], strict: " ++
    Value.boolText r.strict ++ " \x7d"

end Registry
end Outline

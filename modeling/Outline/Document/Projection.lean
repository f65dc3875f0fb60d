import Outline.Document.Print
import Outline.Json.Basic

/-!
# Documents as JSON

A node is an object with its name, its children, and tag and text of its value; the tag is left
out for strings and both for nodes without a value. Going back, missing members have defaults,
and scalars stand for their texts.
-/

namespace Outline.Document

/-- A node as JSON, at most `depth` levels of it. -/
def nodeJsonWithin (r : Registry) (f : Forest) : Nat → NodeId → Json
  | 0, _ => .null
  | depth + 1, id =>
    let members : List (String × Json) :=
      [("children", .array ((f.children id).map (nodeJsonWithin r f depth))),
        ("name", .string (f.name id))]
    match f.value id with
    | none => .object members
    | some value =>
      let (tag, text) := describe r f value
      let typeMember := if tag = "string" then [] else [("type", .string tag)]
      .object (members ++ typeMember ++ [("value", .string text)])

def nodeJson (r : Registry) (f : Forest) (id : NodeId) : Json := nodeJsonWithin r f f.size id

/-- The top level of a document. -/
def toJson (r : Registry) (f : Forest) : Json :=
  .array ((f.children Forest.root).map (nodeJson r f))

/-- Why a JSON value describes no document. -/
inductive ShapeFault
  | noDocument (found : Json)
  | noNode (found : Json)
  | nameNoString (found : Json)
  | valueNoScalar (found : Json)
  | childrenNoArray

def ShapeFault.text : ShapeFault → String
  | noDocument found => "expected an array or object, found " ++ found.compactText
  | noNode found => "expected a node object, found " ++ found.compactText
  | nameNoString found => "name must be a string, found " ++ found.compactText
  | valueNoScalar found => "value must be a scalar, found " ++ found.compactText
  | childrenNoArray => "children must be an array"

inductive ProjectionError
  | shape (fault : ShapeFault)
  | literal (error : Error)

/-- Builds on a forest that is given up on failure. -/
abbrev FromJson := StateT Forest (Except ProjectionError)

/-- The name of a node; none is the empty one. -/
def jsonName (members : List (String × Json)) : Except ProjectionError String :=
  match Json.member? "name" members with
  | some (.string name) => .ok name
  | none | some .null => .ok ""
  | some found => .error (.shape (.nameNoString found))

def jsonRaw (members : List (String × Json)) : Except ProjectionError (Option String) :=
  match Json.member? "value" members with
  | none | some .null => .ok none
  | some (.string s) => .ok (some s)
  | some (.array items) => .error (.shape (.valueNoScalar (.array items)))
  | some (.object ms) => .error (.shape (.valueNoScalar (.object ms)))
  | some scalar => .ok (some scalar.compactText)

/-- The value of a node: text is converted under the tag beside it. -/
def jsonValue (convert : Convert) (members : List (String × Json)) : FromJson (Option Value) := do
  match ← jsonRaw members with
  | none => return none
  | some raw =>
    match Json.member? "type" members with
    | some (.string tag) =>
      if tag = "string" then return some (.string raw)
      else fun f =>
        match convert tag raw f with
        | (.ok value, f) => .ok (some value, f)
        | (.error e, _) => .error (.literal e)
    | _ => return some (.string raw)

mutual

/-- The value is converted before the node is made, and the node is made before its children. -/
def nodeOfJson (convert : Convert) (json : Json) : FromJson NodeId :=
  match json with
  | .object members => do
    let name ← jsonName members
    let value ← jsonValue convert members
    let id ← modifyGet (·.create name value)
    childrenOfJson convert id members
    return id
  | found => throw (.shape (.noNode found))

/-- Look for the member that holds the children. -/
def childrenOfJson (convert : Convert) (parent : NodeId) (members : List (String × Json)) :
    FromJson Unit :=
  match members with
  | [] => return
  | (key, value) :: rest =>
    if key = "children" then
      match value with
      | .array items => nodesOfJson convert parent items
      | _ => throw (.shape .childrenNoArray)
    else childrenOfJson convert parent rest

def nodesOfJson (convert : Convert) (parent : NodeId) (items : List Json) : FromJson Unit :=
  match items with
  | [] => return
  | item :: items => do
    let id ← nodeOfJson convert item
    modify (·.add parent id)
    nodesOfJson convert parent items

end

/-- A document from an array of nodes, or from a single node. -/
def ofJson (r : Registry) (json : Json) : Except ProjectionError Forest :=
  match json with
  | .array items => return (← nodesOfJson r.convert Forest.root items Forest.empty).2
  | .object members =>
    return (← nodesOfJson r.convert Forest.root [.object members] Forest.empty).2
  | found => .error (.shape (.noDocument found))

end Outline.Document

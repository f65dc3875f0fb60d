import Outline.Forest.Walk
import Outline.Path.Expression

/-!
# Evaluation of paths

A path starts at an identity node and maps a list of nodes step by step, until the list is
empty. A step `{n}` filters by the text of a child of the identity node; where that child
holds an expression, the expression is followed, from the child as its identity. The nodes
being followed form a trail, and coming back to a node on the trail is an error.
-/

namespace Outline

/-- A computation that reads and restores the trail of followed nodes, innermost first. -/
abbrev Evaluation := ExceptT Error (StateM (List NodeId))

namespace Evaluation

/-- Run with `id` on the trail; it is taken off again whether the run fails or not. -/
def following {α : Type} (id : NodeId) (x : Evaluation α) : Evaluation α := fun trail =>
  let (result, trail) := x (id :: trail)
  (result, trail.tail)

/-- The result from an empty trail. -/
def result {α : Type} (x : Evaluation α) : Except Error α := (x []).1

end Evaluation

namespace Path

/-- What evaluation looks at: the nodes, and the text of a value as it would be written. -/
structure World where
  forest : Forest
  text : Value → String

namespace World

variable (w : World)

def filterByName (input : List NodeId) (name : String) : List NodeId :=
  input.filter fun id => w.forest.name id == name

/-- A node without a value has the empty text. -/
def valueEquals (literal : String) (id : NodeId) : Bool :=
  match w.forest.value id with
  | none => literal.isEmpty
  | some (.string s) => s == literal
  | some value => w.text value == literal

/-- The sibling before a node, or the last one; nothing for a detached node. -/
def previousWrapped (id : NodeId) : Option NodeId :=
  (w.forest.parent id).bind fun p =>
    (w.forest.previous id).orElse fun _ => (w.forest.children p).getLast?

/-- The sibling behind a node, or the first one; nothing for a detached node. -/
def nextWrapped (id : NodeId) : Option NodeId :=
  (w.forest.parent id).bind fun p =>
    (w.forest.next id).orElse fun _ => (w.forest.children p).head?

/-- The nested tree that a node holds. -/
def dereference (id : NodeId) : Except Error NodeId :=
  match w.forest.value id with
  | some (.node container) => .ok container
  | _ => .error (.notANode (w.forest.name id))

/-- The closest older sibling or ancestor of the first node with the given name. -/
def findAncestor (input : List NodeId) (name : String) : Option NodeId :=
  input.head?.bind fun id => (w.forest.preceding id).find? fun e => w.forest.name e == name

/-- Keep the first of equal elements. -/
def distinct (seen : List NodeId) : List NodeId → List NodeId
  | [] => []
  | id :: ids => if seen.contains id then distinct seen ids else id :: distinct (id :: seen) ids

section

variable {m : Type → Type} [Monad m] [MonadExceptOf Error m]

/-- Apply a step to a list of nodes, where `stringify` gives the text a node stands for. What
following an expression takes is left to `stringify`. -/
def applyWith (stringify : NodeId → m String) (identity : NodeId) (step : Step)
    (input : List NodeId) : m (List NodeId) :=
  match step with
  | .children => return input.flatMap w.forest.children
  | .dereference => MonadExcept.ofExcept (input.mapM w.dereference)
  | .previous => return input.filterMap w.previousWrapped
  | .next => return input.filterMap w.nextWrapped
  | .parent => return distinct [] (input.filterMap w.forest.parent)
  | .root => return (input.head?.map w.forest.rootOf).toList
  | .descendants => return input.flatMap w.forest.descendants
  | .extrapolation index =>
    match (w.forest.children identity)[index]? with
    | none => throw (.extrapolationOutOfRange index)
    | some source => do
      let name ← stringify source
      return w.filterByName input name
  | .valueEquals literal => return input.filter (w.valueEquals literal)
  | .subscript start count => return (input.drop start).take count
  | .ancestor name => return (w.findAncestor input name).toList
  | .escaped name | .named name => return w.filterByName input name
  | .child index => return input.filterMap fun id => (w.forest.children id)[index]?

/-- Apply steps in order, until nothing is left to apply them to. -/
def runWith (stringify : NodeId → m String) (identity : NodeId) :
    List Step → List NodeId → m (List NodeId)
  | [], input => return input
  | step :: steps, input => do
    let result ← w.applyWith stringify identity step input
    if result.isEmpty then return [] else runWith stringify identity steps result

/-- The text of what an expression leads to: none, or one node. -/
def followWith (stringify : NodeId → m String) (e : Expression) (id : NodeId) : m String := do
  match ← w.runWith stringify id e.steps [id] with
  | [] => return ""
  | [single] => stringify single
  | _ => throw (.multipleResults e.text)

end

/-- The text a node stands for, with at most `depth` expressions followed one inside the other.
Each of them is on the trail, so there are never more of them than nodes. -/
def stringify : Nat → NodeId → Evaluation String
  | depth, id =>
    match w.forest.value id with
    | none => return ""
    | some (.string s) => return s
    | some (.expression e) => do
      if (← get).contains id then throw (.circularExpression e.text)
      else
        match depth with
        | 0 => throw (.circularExpression e.text)
        | depth + 1 => Evaluation.following id (w.followWith (stringify depth) e id)
    | some value => return w.text value

def apply (identity : NodeId) (step : Step) (input : List NodeId) : Evaluation (List NodeId) :=
  w.applyWith (w.stringify w.forest.size) identity step input

def evaluate (e : Expression) (identity : NodeId) : Evaluation (List NodeId) :=
  w.runWith (w.stringify w.forest.size) identity e.steps [identity]

def evaluateNode (id : NodeId) : Except Error (List NodeId) :=
  match w.forest.value id with
  | some (.expression e) => (w.evaluate e id).result
  | _ => .error (.notAnExpression (w.forest.name id))

end World
end Path
end Outline

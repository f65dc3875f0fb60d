import Outline.Forest.Edit
import Outline.Text.Utf8
import Outline.Token.Scan

/-!
# From tokens to a tree

Building goes token by token and keeps a place in the forest: the node that new nodes are
added to and its level below the container. What was built before a fault stays.
-/

namespace Outline

/-- A step that changes a forest and may fail; the forest survives a failure. -/
abbrev Build := ExceptT Error (StateM Forest)

namespace Build

/-- Change the forest and give back what the change yields. -/
def step {α : Type} (change : Forest → α × Forest) : Build α := fun f =>
  let (a, f) := change f
  (.ok a, f)

def edit (change : Forest → Forest) : Build Unit := fun f => (.ok (), change f)

def ofExcept {α : Type} (x : Except Error α) : Build α := fun f => (x, f)

section

variable {α β : Type} (f : Forest)

theorem bind_apply (x : Build α) (k : α → Build β) :
    (x >>= k) f = match x f with
      | (.ok a, g) => k a g
      | (.error e, g) => (.error e, g) := by
  simp only [bind, ExceptT.bind, ExceptT.mk, StateT.bind]
  rcases x f with ⟨_ | _, g⟩ <;> rfl

theorem pure_apply (a : α) : (pure a : Build α) f = (.ok a, f) := rfl
theorem throw_apply (e : Error) : (throw e : Build α) f = (.error e, f) := rfl
theorem get_apply : (get : Build Forest) f = (.ok f, f) := rfl
theorem step_apply (change : Forest → α × Forest) :
    step change f = (.ok (change f).1, (change f).2) := rfl
theorem edit_apply (change : Forest → Forest) : edit change f = (.ok (), change f) := rfl
theorem ofExcept_apply (x : Except Error α) : ofExcept x f = (x, f) := rfl

end

end Build

namespace Document

/-- The name of the nodes that hold kept comments. -/
def commentName : String := ".."

/-- How the literals of a document become values, by tag and raw text. -/
abbrev Convert := String → String → Build Value

/-- The place in the tree that is being built. -/
structure Place where
  /-- New nodes become children of this one. -/
  parent : NodeId
  /-- How far the parent is below the container. -/
  level : Nat
  /-- The node whose line is being read. -/
  current : Option NodeId
  /-- The tag that waits for its literal. -/
  tag : Option String
  /-- The kind of the token before. -/
  previous : Token.Kind
  deriving DecidableEq, Repr

def Place.start (container : NodeId) : Place := ⟨container, 0, none, none, .lineBreak⟩

/-- A line without indentation goes back to the container. -/
def Place.reset (p : Place) (container : NodeId) : Place :=
  if p.previous = .lineBreak then { p with parent := container, level := 0 } else p

/-- A fault in the structure quotes the name of the last node. -/
def fault (f : Forest) (p : Place) (t : Token) (cause : SyntaxFault) : Error :=
  .syntaxError cause t.position ((p.current.map f.name).getD "")

def ascend (f : Forest) : Nat → NodeId → Option NodeId
  | 0, id => some id
  | n + 1, id => (f.parent id).bind (ascend f n)

/-- Follow an indentation to its level: one level down to the last child, or any number up. -/
def changeLevel (f : Forest) (t : Token) (p : Place) : Except Error Place :=
  let level := t.text.length / 3
  if p.level + 1 < level then .error (fault f p t (.levelJump p.level level))
  else if level = p.level + 1 then
    match (f.children p.parent).getLast? with
    | some last => .ok { p with parent := last, level }
    | none => .error (fault f p t .noOwner)
  else
    match ascend f (p.level - level) p.parent with
    | some parent => .ok { p with parent, level }
    | none => .error (fault f p t .leavesDocument)

def addNode (p : Place) (name : String) (value : Option Value) : Build NodeId :=
  Build.step fun f =>
    let (id, f) := f.create name value
    (id, f.add p.parent id)

/-- Take a name: it starts a node. A kept comment takes no nodes below it. -/
def acceptName (comments : Bool) (container : NodeId) (t : Token) (p : Place) : Build Place := do
  let p := p.reset container
  let f ← get
  if comments && f.name p.parent == commentName && p.parent != container then
    throw (fault f p t .commentWithChildren)
  let id ← addNode p t.text none
  return { p with current := some id, tag := none }

/-- Take a comment: it becomes a node if comments are kept. -/
def acceptComment (comments : Bool) (container : NodeId) (t : Token) (p : Place) : Build Place :=
  if comments then do
    let p := p.reset container
    let _ ← addNode p commentName (some (.string t.text))
    return p
  else return p

/-- Take a literal: it is converted under the tag in front of it, if there is one. -/
def acceptValue (convert : Convert) (t : Token) (p : Place) : Build Place :=
  match p.current with
  | none => return p
  | some id => do
    let value ←
      match p.tag with
      | some tag => if tag.isEmpty then pure (.string t.text) else convert tag t.text
      | none => pure (.string t.text)
    Build.edit (·.setValue id (some value))
    return { p with tag := none }

/-- A separator behind a name gives its node an empty value, until a literal replaces it. -/
def acceptSeparator (p : Place) : Build Place :=
  match p.current with
  | some id => do
    if p.previous = .name then Build.edit (·.setValue id (some (.string "")))
    return p
  | none => return p

def accept (convert : Convert) (comments : Bool) (container : NodeId) (p : Place) (t : Token) :
    Build Place := do
  let p ←
    match t.kind with
    | .name => acceptName comments container t p
    | .lineComment | .blockComment => acceptComment comments container t p
    | .separator => acceptSeparator p
    | .type => pure { p with tag := some t.text }
    | .value => acceptValue convert t p
    | .space => fun f => (changeLevel f t p, f)
    | .lineBreak => pure p
  return { p with previous := t.kind }

def buildTokens (convert : Convert) (comments : Bool) (container : NodeId) (ts : List Token) :
    Build Place :=
  ts.foldlM (accept convert comments container) (.start container)

/-- Append the top level of a document to the children of `container`. -/
def parseInto (convert : Convert) (comments : Bool) (source : String) (container : NodeId) :
    Build Unit := do
  let ts ← Build.ofExcept (tokenize source)
  let _ ← buildTokens convert comments container ts

/-- A document in a new container of its own. -/
def parseDetached (convert : Convert) (source : String) : Build NodeId := do
  let container ← Build.step (·.create "" none)
  parseInto convert false source container
  return container

/-- A document in a new forest. -/
def parse (convert : Convert) (comments : Bool) (source : String) : Except Error Forest :=
  match parseInto convert comments source Forest.root Forest.empty with
  | (.ok _, f) => .ok f
  | (.error e, _) => .error e

/-- The tail of text before bytes that are none: forty bytes of it, or nothing if a character
spans that place. -/
def brokenContext (s : List Char) : List Char :=
  Text.dropBytes (Text.byteLength s - Text.contextLength) s

def parseBytes (convert : Convert) (comments : Bool) (bytes : List UInt8) : Except Error Forest :=
  match Text.decodeBytes bytes with
  | (s, []) => parse convert comments (String.ofList s)
  | (s, _ :: _) =>
    .error (.syntaxError .invalidUtf8 (Position.after s) (String.ofList (brokenContext s)))

end Document
end Outline

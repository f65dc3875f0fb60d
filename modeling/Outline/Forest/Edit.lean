import Outline.Forest.Walk

/-!
# Edits

Moving a node takes it out of the list it stands in and puts it into another one; its own
children stay with it. A move that would put a node below itself is refused.
-/

namespace Outline.Forest

def untie (f : Forest) (id : NodeId) : Forest :=
  match f.parent id with
  | none => f
  | some p =>
    (f.setParent id none).modify p fun s => { s with children := s.children.filter (· != id) }

def add (f : Forest) (parent child : NodeId) : Forest :=
  if f.isWithin parent child then f
  else
    let f := f.untie child
    (f.modify parent fun s => { s with children := s.children ++ [child] }).setParent child parent

def addRange (f : Forest) (parent : NodeId) (nodes : List NodeId) : Forest :=
  nodes.foldl (fun f node => f.add parent node) f

/-- Make a detached node and move `children` into it. -/
def createWithChildren (f : Forest) (name : String) (value : Option Value)
    (children : List NodeId) : NodeId × Forest :=
  let (id, f) := f.create name value
  (id, f.addRange id children)

/-- Put `node` into the list of `sibling`, `offset` places behind it. Beside a detached node
there is no list, and `node` ends up detached. -/
def splice (f : Forest) (sibling node : NodeId) (offset : Nat) : Forest :=
  if f.isWithin sibling node then f
  else
    let f := f.untie node
    match f.parent sibling, f.place? sibling with
    | some p, some i =>
      (f.modify p fun s => { s with children := s.children.insertIdx (i + offset) node }).setParent
        node p
    | _, _ => f

def insertBefore (f : Forest) (sibling node : NodeId) : Forest := f.splice sibling node 0
def insertAfter (f : Forest) (sibling node : NodeId) : Forest := f.splice sibling node 1

/-- Detach all children of a node. -/
def clear (f : Forest) (id : NodeId) : Forest :=
  (f.children id).foldl (fun f child => f.setParent child none) (f.setChildren id [])

end Outline.Forest

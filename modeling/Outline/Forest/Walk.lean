import Outline.Forest.Basic

/-!
# Walks through a forest

Up to the root of a tree, sideways among siblings, and down in pre-order. No walk visits more
nodes than there are, which bounds all of them.
-/

namespace Outline.Forest

/-- `a` and what `next` leads to from it, at most `n` elements. -/
def chain {α : Type} (next : α → Option α) : Nat → α → List α
  | 0, _ => []
  | n + 1, a => a ::
    match next a with
    | none => []
    | some b => chain next n b

/-- The node and its ancestors, innermost first. -/
def lineage (f : Forest) (id : NodeId) : List NodeId := chain f.parent f.size id

/-- The topmost ancestor, which is the node itself when it is detached. -/
def rootOf (f : Forest) (id : NodeId) : NodeId := (f.lineage id).getLast?.getD id

/-- `id` is `ancestor` or sits somewhere below it. -/
def isWithin (f : Forest) (id ancestor : NodeId) : Bool := (f.lineage id).contains ancestor

/-- The children of the parent, the node itself included. -/
def siblings (f : Forest) (id : NodeId) : List NodeId :=
  match f.parent id with
  | some p => f.children p
  | none => []

def place? (f : Forest) (id : NodeId) : Option Nat := (f.siblings id).idxOf? id

def previous (f : Forest) (id : NodeId) : Option NodeId :=
  match f.place? id with
  | some (i + 1) => (f.siblings id)[i]?
  | _ => none

def next (f : Forest) (id : NodeId) : Option NodeId :=
  (f.place? id).bind fun i => (f.siblings id)[i + 1]?

/-- Visit the nodes of `pending` in order, the children of each one before the rest. -/
def walk (f : Forest) : Nat → List NodeId → List NodeId
  | 0, _ => []
  | _ + 1, [] => []
  | n + 1, id :: pending => id :: walk f n (f.children id ++ pending)

/-- The node followed by all that is below it, pre-order. -/
def descendants (f : Forest) (id : NodeId) : List NodeId := f.walk f.size [id]

/-- The older sibling next to the node, or its parent if it has none. -/
def earlier (f : Forest) (id : NodeId) : Option NodeId :=
  (f.previous id).orElse fun _ => f.parent id

/-- Older siblings and ancestors of a node and of its ancestors, closest first. -/
def preceding (f : Forest) (id : NodeId) : List NodeId :=
  match f.earlier id with
  | none => []
  | some e => chain f.earlier f.size e

end Outline.Forest

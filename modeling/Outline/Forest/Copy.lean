import Outline.Forest.Edit

/-!
# Copies and comparison

A copy takes nested trees along and shares nothing with the tree it was made from. Trees are
compared by names, values and children; nested trees by structure, wherever they live. Both
go down at most as many levels as there are nodes.
-/

namespace Outline.Forest

/-- Copy a tree, at most `depth` levels of it: the nested tree of its value first, then the
node, then its children. -/
def copyTree : Nat → NodeId → Forest → NodeId × Forest
  | 0, id, f => f.create (f.name id) none
  | depth + 1, id, f =>
    let (value, f) : Option Value × Forest :=
      match f.value id with
      | some (.node container) =>
        let (copy, f) := copyTree depth container f
        (some (.node copy), f)
      | value => (value, f)
    let (copy, g) := f.create (f.name id) value
    (copy, (f.children id).foldl
      (fun g child =>
        let (childCopy, g) := copyTree depth child g
        g.add copy childCopy) g)

/-- A detached copy of a tree. -/
def deepClone (f : Forest) (id : NodeId) : NodeId × Forest := copyTree f.size id f

/-- Both lists have the same length and agree place by place. -/
def allPairs (same : NodeId → NodeId → Bool) : List NodeId → List NodeId → Bool
  | [], [] => true
  | a :: as, b :: bs => same a b && allPairs same as bs
  | _, _ => false

/-- Compare two trees, at most `depth` levels of them. -/
def sameTree (f g : Forest) : Nat → NodeId → NodeId → Bool
  | 0, _, _ => false
  | depth + 1, a, b =>
    f.name a == g.name b &&
      (match f.value a, g.value b with
        | none, none => true
        | some (.node x), some (.node y) => sameTree f g depth x y
        | some x, some y => x.equal y
        | _, _ => false) &&
      allPairs (sameTree f g depth) (f.children a) (g.children b)

/-- The trees below `a` and below `b` of the forest `g` agree. -/
def structurallyEqual (f : Forest) (a : NodeId) (g : Forest) (b : NodeId) : Bool :=
  sameTree f g f.size a b

end Outline.Forest

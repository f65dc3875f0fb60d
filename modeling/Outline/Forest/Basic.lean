import Outline.Value.Basic

/-!
# Forests

A forest owns all nodes ever made in it. A node is a slot with a name, an optional value, an
ordered list of children and a link to its parent; slot 0 is the root, which holds the top
level of a document. Slots are never taken back.
-/

namespace Outline

structure Slot where
  name : String := ""
  value : Option Value := none
  children : List NodeId := []
  parent : Option NodeId := none
  deriving DecidableEq, Repr, Inhabited

structure Forest where
  slots : Array Slot
  deriving DecidableEq, Repr

namespace Forest

/-- A forest with nothing but its root. -/
def empty : Forest := ⟨#[{}]⟩

instance : Inhabited Forest := ⟨empty⟩

def root : NodeId := 0

/-- The number of nodes ever made, detached ones included. -/
def size (f : Forest) : Nat := f.slots.size

@[simp] theorem size_empty : empty.size = 1 := rfl

/-- The slot of a node; a node that was never made looks like a bare one. -/
def slot (f : Forest) (id : NodeId) : Slot := f.slots.getD id {}

def name (f : Forest) (id : NodeId) : String := (f.slot id).name
def value (f : Forest) (id : NodeId) : Option Value := (f.slot id).value
def children (f : Forest) (id : NodeId) : List NodeId := (f.slot id).children
def parent (f : Forest) (id : NodeId) : Option NodeId := (f.slot id).parent

def isEmpty (f : Forest) : Bool := (f.children root).isEmpty

def modify (f : Forest) (id : NodeId) (g : Slot → Slot) : Forest := ⟨f.slots.modify id g⟩

@[simp] theorem size_modify (f : Forest) (id : NodeId) (g : Slot → Slot) :
    (f.modify id g).size = f.size := by
  simp [modify, size]

theorem slot_modify (f : Forest) (id i : NodeId) (g : Slot → Slot) :
    (f.modify id g).slot i = if i = id ∧ i < f.size then g (f.slot i) else f.slot i := by
  simp only [slot, modify, size, Array.getD_eq_getD_getElem?, Array.getElem?_modify]
  by_cases h : i < f.slots.size
  · by_cases hi : id = i
    · subst hi
      simp [h]
    · simp [hi, Ne.symm hi]
  · simp [h]

theorem slot_of_size_le {f : Forest} {id : NodeId} (h : f.size ≤ id) : f.slot id = {} := by
  simp [slot, Array.getD_eq_getD_getElem?, Array.getElem?_eq_none h]

/-- Make a detached node. -/
def create (f : Forest) (name : String) (value : Option Value) : NodeId × Forest :=
  (f.size, ⟨f.slots.push { name, value }⟩)

@[simp] theorem create_fst (f : Forest) (name : String) (value : Option Value) :
    (f.create name value).1 = f.size := rfl

@[simp] theorem size_create (f : Forest) (name : String) (value : Option Value) :
    (f.create name value).2.size = f.size + 1 := by
  simp [create, size]

theorem slot_create (f : Forest) (name : String) (value : Option Value) (i : NodeId) :
    (f.create name value).2.slot i = if i = f.size then { name, value } else f.slot i := by
  simp only [slot, create, size, Array.getD_eq_getD_getElem?, Array.getElem?_push]
  split <;> simp_all

def setName (f : Forest) (id : NodeId) (name : String) : Forest :=
  f.modify id fun s => { s with name }

def setValue (f : Forest) (id : NodeId) (value : Option Value) : Forest :=
  f.modify id fun s => { s with value }

def setParent (f : Forest) (id : NodeId) (parent : Option NodeId) : Forest :=
  f.modify id fun s => { s with parent }

def setChildren (f : Forest) (id : NodeId) (children : List NodeId) : Forest :=
  f.modify id fun s => { s with children }

/-! ## What a change leaves alone -/

section

variable (f : Forest) (id i : NodeId)

theorem slot_of_ne {g : Slot → Slot} (h : i ≠ id) : (f.modify id g).slot i = f.slot i := by
  simp [slot_modify, h]

@[simp] theorem size_setName (n : String) : (f.setName id n).size = f.size := size_modify ..
@[simp] theorem size_setValue (v : Option Value) : (f.setValue id v).size = f.size :=
  size_modify ..
@[simp] theorem size_setParent (p : Option NodeId) : (f.setParent id p).size = f.size :=
  size_modify ..
@[simp] theorem size_setChildren (cs : List NodeId) : (f.setChildren id cs).size = f.size :=
  size_modify ..

@[simp] theorem children_setName (n : String) : (f.setName id n).children i = f.children i := by
  simp only [children, setName, slot_modify]
  split <;> rfl

@[simp] theorem parent_setName (n : String) : (f.setName id n).parent i = f.parent i := by
  simp only [parent, setName, slot_modify]
  split <;> rfl

@[simp] theorem name_setValue (v : Option Value) : (f.setValue id v).name i = f.name i := by
  simp only [name, setValue, slot_modify]
  split <;> rfl

@[simp] theorem children_setValue (v : Option Value) :
    (f.setValue id v).children i = f.children i := by
  simp only [children, setValue, slot_modify]
  split <;> rfl

@[simp] theorem parent_setValue (v : Option Value) :
    (f.setValue id v).parent i = f.parent i := by
  simp only [parent, setValue, slot_modify]
  split <;> rfl

theorem value_setValue (v : Option Value) :
    (f.setValue id v).value i = if i = id ∧ i < f.size then v else f.value i := by
  simp only [value, setValue, slot_modify]
  split <;> rfl

@[simp] theorem children_setParent (p : Option NodeId) :
    (f.setParent id p).children i = f.children i := by
  simp only [children, setParent, slot_modify]
  split <;> rfl

theorem parent_setParent (p : Option NodeId) :
    (f.setParent id p).parent i = if i = id ∧ i < f.size then p else f.parent i := by
  simp only [parent, setParent, slot_modify]
  split <;> rfl

@[simp] theorem parent_setChildren (cs : List NodeId) :
    (f.setChildren id cs).parent i = f.parent i := by
  simp only [parent, setChildren, slot_modify]
  split <;> rfl

theorem children_setChildren (cs : List NodeId) :
    (f.setChildren id cs).children i = if i = id ∧ i < f.size then cs else f.children i := by
  simp only [children, setChildren, slot_modify]
  split <;> rfl

@[simp] theorem children_create (n : String) (v : Option Value) :
    (f.create n v).2.children i = f.children i := by
  simp only [children, slot_create]
  split
  · rename_i h
    simp [slot_of_size_le (Nat.le_of_eq h.symm)]
  · rfl

@[simp] theorem parent_create (n : String) (v : Option Value) :
    (f.create n v).2.parent i = f.parent i := by
  simp only [parent, slot_create]
  split
  · rename_i h
    simp [slot_of_size_le (Nat.le_of_eq h.symm)]
  · rfl

end

end Forest
end Outline

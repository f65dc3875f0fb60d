import Outline.Proofs.Document.Reached
import Outline.Proofs.Document.RoundTrip

/-!
# Projected documents read back

What a forest shows below its root is projected to JSON and made into a forest again. A node
comes back from its own object, with the nested tree of its value first, then the node itself,
then its children. Nested trees take the way through their text.
-/

namespace Outline.Document

open Forest Registry

variable {r : Registry} {f g h k : Forest} {convert : Convert} {gr gr' : Grove} {q : NodeId}
  {name : String} {v v' : Option Value}

/-! ## One object -/

/-- What tag and text in an object are made into; there may be none. -/
inductive Restores (convert : Convert) (f : Forest) :
    Option (String × String) → Option Value → Forest → Prop
  | none : Restores convert f none none f
  | string (text : String) : Restores convert f (some ("string", text)) (some (.string text)) f
  | typed {tag text : String} {v : Value} {g : Forest} (htag : tag ≠ "string")
      (h : convert tag text f = (.ok v, g)) : Restores convert f (some (tag, text)) (some v) g

/-- A text, or a scalar whose tag and text are converted to an equal value, in any forest and
without a change to the nodes that are there. -/
def Returns (r : Registry) (f : Forest) (v : Value) : Prop :=
  (∃ s, v = .string s) ∨ (describe r f v).1 ≠ "string" ∧
    ∀ g : Forest, g.WellFormed → ∃ v' h,
      r.convert (describe r f v).1 (describe r f v).2 g = (.ok v', h) ∧
        (∀ q, Grown g h q []) ∧ v.equal v' = true

/-- A text, or a scalar that is read back from its line as an equal value. -/
def Printable (r : Registry) (v : Value) : Prop := (∃ s, v = .string s) ∨ ∃ v', ReadsBack r v v'

theorem Printable.readable {v : Value} (h : Printable r v) : Readable r (fun _ _ => True) v :=
  h.imp_right fun ⟨_, hback⟩ => hback.readsTo trivial

end Outline.Document

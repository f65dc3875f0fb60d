/-!
# Guarded resources

A guard owns a resource and lends it out to one action at a time. A reader sees the resource;
a writer replaces it. An action that breaks off leaves the resource as it last made it, and
the guard is free again.
-/

namespace Outline

structure Guard (σ : Type) where
  resource : σ

namespace Guard

variable {σ ε α : Type}

def read (g : Guard σ) (action : σ → α) : α := action g.resource

/-- Change the resource. -/
def write (g : Guard σ) (action : StateM σ α) : α × Guard σ :=
  let (a, resource) := action g.resource
  (a, ⟨resource⟩)

/-- Change the resource by an action that may break off. -/
def attempt (g : Guard σ) (action : ExceptT ε (StateM σ) α) : Except ε α × Guard σ :=
  g.write action

end Guard
end Outline

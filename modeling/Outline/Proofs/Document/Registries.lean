import Outline.Document.Builtin

/-!
# What readers hand on

A converter asks the readers of its registry, and a reader may ask the converter for the literals
inside its own. So a property of converters that every reader hands on holds of the converter of
the registry.
-/

namespace Outline.Registry

variable {r : Registry}

/-- The depth of nesting is what the induction is on. A property of converters is one of each
literal by itself, since the depth that is allowed depends on the literal. -/
theorem convert_of_readers {P : Document.Convert → Prop}
    (hpoint : ∀ convert, P convert ↔ ∀ tag raw, P fun _ _ => convert tag raw)
    (hunknown : ∀ tag, P fun _ _ => throw (.unknownType tag))
    (hr : ∀ entry ∈ r.readers, ∀ context : ReadContext, P context.convert →
      P fun _ raw => entry.2 context raw) : P r.convert := by
  have hwithin : ∀ depth, P (r.convertWithin depth) := by
    intro depth
    induction depth with
    | zero => exact (hpoint _).mpr fun tag _ => hunknown tag
    | succ depth ih =>
      refine (hpoint _).mpr fun tag raw => ?_
      simp only [convertWithin]
      cases hread : r.readers.lookup tag with
      | none => exact hunknown tag
      | some read =>
        obtain ⟨l, l', hl, -⟩ := List.lookup_eq_some_iff.mp hread
        have hone := hr (tag, read) (by simp [hl]) ⟨r.convertWithin depth, r.tags⟩ ih
        exact (hpoint _).mp hone tag raw
  exact (hpoint _).mpr fun tag raw => (hpoint _).mp (hwithin (raw.length + 1)) tag raw

theorem builtin_readers {P : Reader → Prop} (hscalar : ∀ kind, P (scalarReader kind))
    (hnode : P nodeReader) : ∀ entry ∈ builtin.readers, P entry.2 := by
  intro entry h
  simp only [builtin, List.mem_append, List.mem_map, List.mem_cons, List.not_mem_nil, or_false] at h
  rcases h with ⟨kind, -, rfl⟩ | rfl | rfl
  · exact hscalar kind
  · exact hscalar .float
  · exact hnode

/-- The reader of a registered type tells what was stated against the text. -/
def stating (tag : String) (read : String → Except String Value.Custom) (raw : String) :
    Except Error Value :=
  match read raw with
  | .ok c => .ok (.custom c)
  | .error reason => .error (.invalidValue tag raw (.stated reason))

theorem registerType_readers {P : Reader → Prop} (type : Value.TypeKey) (tag : String)
    (write : Value.Custom → String) (read : String → Except String Value.Custom)
    (hr : ∀ entry ∈ r.readers, P entry.2)
    (hnew : P fun _ raw => Build.ofExcept (stating tag read raw)) :
    ∀ entry ∈ (r.registerType type tag write read).readers, P entry.2 := by
  intro entry h
  rw [registerType, register, insert] at h
  rcases List.mem_cons.mp h with rfl | h
  · refine (congrArg P (funext fun _ => funext fun raw => ?_)).mpr hnew
    simp only [stating]
    cases read raw <;> rfl
  · exact hr entry (List.mem_filter.mp h).1

end Outline.Registry

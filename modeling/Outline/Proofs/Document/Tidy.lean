import Outline.Proofs.Document.Layout
import Outline.Proofs.Document.Registries
import Outline.Proofs.Document.Scalars

/-!
# Readers that build whole trees

The built-in readers, and those of registered types, are tidy: a scalar adds nothing, and a
nested document adds a container with all that is below it. So whole documents are built as
they are sketched.
-/

namespace Outline.Document

open Forest Token Build

variable {f g : Forest} {convert : Convert} {comments : Bool} {source : String}

/-- A reader that is tidy, given that the literals inside its own are read in such a way. -/
def TidyReader (read : Registry.Reader) : Prop :=
  ∀ context : Registry.ReadContext, Tidy context.convert → Tidy fun _ raw => read context raw

/-! ## Scalars -/

theorem tidy_ofExcept {x : String → String → Except Error Value}
    (hx : ∀ tag raw v, x tag raw = .ok v → v.container? = none) :
    Tidy fun tag raw => Build.ofExcept (x tag raw) where
  uniform tag raw _ _ _ _ := rfl
  adds tag raw f g v hf h := by
    rw [ofExcept_apply, Prod.mk.injEq] at h
    obtain ⟨hv, rfl⟩ := h
    rw [Value.tops, hx tag raw v hv]
    exact .refl hf
  rising tag raw f g v _ h := by
    rw [ofExcept_apply, Prod.mk.injEq] at h
    obtain ⟨-, rfl⟩ := h
    exact Rising.of_size_le (Nat.le_refl _)

theorem container?_of_readScalar {kind : Value.Kind} {raw : String} {v : Value}
    (h : Registry.readScalar kind raw = .ok v) : v.container? = none := by
  have hmap : ∀ {α : Type} {x : Except Error α} {mk : α → Value},
      (∀ a, (mk a).container? = none) → x.map mk = .ok v → v.container? = none := by
    intro α x mk hmk h
    cases x with
    | error e => cases h
    | ok a =>
      cases h
      exact hmk a
  cases kind with
  | string | bool =>
    cases h
    rfl
  | integer | decimal | double | float | bytes | date | guid | expression =>
    exact hmap (fun _ => rfl) h
  | char =>
    simp only [Registry.readScalar] at h
    split at h <;> cases h
    rfl
  | time =>
    obtain ⟨t, d, -, -, rfl⟩ := readScalar_time h
    rfl
  | node => cases h

theorem tidyReader_scalar (kind : Value.Kind) : TidyReader (Registry.scalarReader kind) :=
  fun _ _ => tidy_ofExcept fun _ _ _ h => container?_of_readScalar h

/-! ## Documents -/

section Comes

variable {Kept : Forest → Prop} {base : Forest} {container : NodeId}
  {run : Except Error Place × Forest} {next : Option Sketch}

theorem Comes.isOk_eq (h : Comes Kept container run next) : run.1.isOk = next.isSome := by
  cases h <;> rfl

theorem Comes.exists_drawn {p : Place} (h : Comes Kept container run next)
    (hrun : run = (.ok p, g)) : ∃ s, next = some s ∧ Drawn g container p s ∧ Kept g := by
  cases h with
  | ok h hk =>
    cases hrun
    exact ⟨_, rfl, h, hk⟩
  | error => cases hrun

theorem Comes.exists_layout {p : Place} (h : Comes (Added base container) container run next)
    (hrun : run = (.ok p, g)) : ∃ s, next = some s ∧ Layout base g container p s := by
  obtain ⟨s, hs, hdrawn, hadded⟩ := h.exists_drawn hrun
  exact ⟨s, hs, { hdrawn, hadded with }⟩

theorem comes_buildTokens (comments : Bool) (hc : Tidy convert) (hadds : Adds base f [container])
    (hrising : Rising base.size f) (hch : f.children container = []) {ts : List Token}
    {lines : List Line} (hts : Spells ts lines) :
    Comes (Added base container) container (buildTokens convert comments container ts f)
      (lines.foldlM (Sketch.step comments (readable convert)) .start) :=
  comes_spells hts (fun line _ => tends_added hc base container line)
    (.start hadds.grown.wf (hadds.fresh (by simp)).2 hch) ⟨hadds, hrising⟩ rfl

end Comes

theorem isOk_map {α β : Type} (x : Except Error α) (k : α → β) : (x.map k).isOk = x.isOk := by
  cases x <;> rfl

theorem nodeReader_apply (context : Registry.ReadContext) (raw : String) (f : Forest) :
    Registry.nodeReader context raw f =
      ((parseInto context.convert false raw f.size (f.create "" none).2).1.map
        fun _ => .node f.size,
       (parseInto context.convert false raw f.size (f.create "" none).2).2) := by
  rw [Registry.nodeReader, parseDetached]
  simp only [bind_apply, step_apply, create_fst, pure_apply]
  rcases parseInto context.convert false raw f.size (f.create "" none).2 with ⟨_ | _, g⟩ <;> rfl

theorem tidyReader_node : TidyReader Registry.nodeReader := by
  intro context hc
  have hcomes : ∀ {ts lines} (f : Forest), f.WellFormed → Spells ts lines →
      Comes (Added f f.size) f.size
        (buildTokens context.convert false f.size ts (f.create "" none).2)
        (lines.foldlM (Sketch.step false (readable context.convert)) .start) := fun f hf hts =>
    comes_buildTokens false hc (.create hf "" rfl) (rising_create f "")
      (children_create_size f _ _) hts
  have hadds : ∀ {f g : Forest} {v : Value} {raw : String}, f.WellFormed →
      Registry.nodeReader context raw f = (.ok v, g) → Adds f g v.tops ∧ Rising f.size g := by
    intro f g v raw hf h
    rw [nodeReader_apply, parseInto_apply, Prod.mk.injEq] at h
    cases ht : tokenize raw with
    | error e =>
      rw [ht] at h
      cases h.1
    | ok ts =>
      obtain ⟨lines, hts⟩ := spells_of_tokenize ht
      have hrun := hcomes f hf hts
      rw [ht] at h
      dsimp only at h
      rcases hx : buildTokens context.convert false f.size ts (f.create "" none).2 with
        ⟨_ | p, k⟩ <;> rw [hx] at h hrun
      · cases h.1
      · obtain ⟨hv, rfl⟩ := h
        cases hv
        obtain ⟨s, -, hlayout⟩ := hrun.exists_layout rfl
        exact ⟨hlayout.adds, hlayout.rising⟩
  refine ⟨fun _ raw f g hf hg => ?_, fun _ raw f g v hf h => (hadds hf h).1,
    fun _ raw f g v hf h => (hadds hf h).2⟩
  rw [nodeReader_apply, nodeReader_apply, parseInto_apply, parseInto_apply]
  cases ht : tokenize raw with
  | error e => rfl
  | ok ts =>
    obtain ⟨lines, hts⟩ := spells_of_tokenize ht
    have hsame := (hcomes f hf hts).isOk_eq.trans (hcomes g hg hts).isOk_eq.symm
    simpa only [isOk_map] using hsame

/-! ## Registries -/

theorem tidy_iff : Tidy convert ↔ ∀ tag raw, Tidy fun _ _ => convert tag raw :=
  ⟨fun h tag raw => ⟨fun _ _ => h.uniform tag raw, fun _ _ => h.adds tag raw,
      fun _ _ => h.rising tag raw⟩,
    fun h => ⟨fun tag raw => (h tag raw).uniform tag raw, fun tag raw => (h tag raw).adds tag raw,
      fun tag raw => (h tag raw).rising tag raw⟩⟩

theorem tidy_throw (e : String → Error) : Tidy fun tag _ => throw (e tag) :=
  tidy_ofExcept (x := fun tag _ => .error (e tag)) fun _ _ _ h => by cases h

theorem tidy_convert {r : Registry} (hr : ∀ entry ∈ r.readers, TidyReader entry.2) :
    Tidy r.convert :=
  Registry.convert_of_readers (fun _ => tidy_iff)
    (fun tag => tidy_throw fun _ => .unknownType tag) hr

theorem tidyReader_builtin : ∀ entry ∈ Registry.builtin.readers, TidyReader entry.2 :=
  Registry.builtin_readers tidyReader_scalar tidyReader_node

theorem container?_of_stating {tag raw : String} {read : String → Except String Value.Custom}
    {v : Value} (h : Registry.stating tag read raw = .ok v) : v.container? = none := by
  rw [Registry.stating] at h
  split at h <;> cases h
  rfl

theorem tidyReader_registerType {r : Registry} (hr : ∀ entry ∈ r.readers, TidyReader entry.2)
    (type : Value.TypeKey) (tag : String) (write : Value.Custom → String)
    (read : String → Except String Value.Custom) :
    ∀ entry ∈ (r.registerType type tag write read).readers, TidyReader entry.2 :=
  Registry.registerType_readers type tag write read hr fun _ _ =>
    tidy_ofExcept fun _ _ _ h => container?_of_stating h

/-! ## Whole documents -/

section Parse

variable {Kept : Forest → Prop} {rd : String → String → Bool} {ts : List Token}
  {lines : List Line} (hts : Spells ts lines)
  (hlines : ∀ line ∈ lines, Tends convert rd Kept root line) (hk : Kept Forest.empty)

include hts hlines hk

theorem comes_parse (comments : Bool) :
    Comes Kept root (buildTokens convert comments root ts Forest.empty)
      (lines.foldlM (Sketch.step comments rd) .start) :=
  comes_spells hts hlines (.start wellFormed_empty (by decide) (by decide)) hk rfl

theorem exists_parse_iff_sketch (ht : tokenize source = .ok ts) :
    (∃ f, parse convert comments source = .ok f) ↔
      (lines.foldlM (Sketch.step comments rd) .start).isSome = true := by
  rw [← (comes_parse hts hlines hk comments).isOk_eq, parse, parseInto_apply, ht]
  dsimp only
  rcases buildTokens convert comments root ts Forest.empty with ⟨_ | p, g⟩
  · constructor
    · rintro ⟨f, h⟩
      cases h
    · intro h
      cases h
  · exact ⟨fun _ => rfl, fun _ => ⟨g, rfl⟩⟩

theorem drawn_of_parse (ht : tokenize source = .ok ts)
    (h : parse convert comments source = .ok f) :
    ∃ p s, lines.foldlM (Sketch.step comments rd) .start = some s ∧ Drawn f root p s ∧ Kept f := by
  have hrun := comes_parse hts hlines hk comments
  rw [parse, parseInto_apply, ht] at h
  dsimp only at h
  rcases hx : buildTokens convert comments root ts Forest.empty with ⟨_ | p, g⟩ <;> rw [hx] at h
  · cases h
  · cases h
    obtain ⟨s, hs, hdrawn⟩ := hrun.exists_drawn hx
    exact ⟨p, s, hs, hdrawn⟩

end Parse

theorem added_empty : Added ⟨#[]⟩ root Forest.empty := ⟨adds_empty, rising_empty _⟩

theorem layout_of_parse {r : Registry} (hr : ∀ entry ∈ r.readers, TidyReader entry.2)
    {ts : List Token} {lines : List Line} (ht : tokenize source = .ok ts) (hts : Spells ts lines)
    (h : parse r.convert comments source = .ok f) :
    ∃ p s, lines.foldlM (Sketch.step comments (readable r.convert)) .start = some s ∧
      Layout ⟨#[]⟩ f root p s := by
  obtain ⟨p, s, hs, hdrawn, hadded⟩ := drawn_of_parse hts
    (fun line _ => tends_added (tidy_convert hr) ⟨#[]⟩ root line) added_empty ht h
  exact ⟨p, s, hs, { hdrawn, hadded with }⟩

theorem Tidy.exists_parse_iff (hc : Tidy convert) {ts : List Token} {lines : List Line}
    (ht : tokenize source = .ok ts) (hts : Spells ts lines) :
    (∃ f, parse convert comments source = .ok f) ↔
      (lines.foldlM (Sketch.step comments (readable convert)) .start).isSome = true :=
  exists_parse_iff_sketch hts (fun line _ => tends_added hc ⟨#[]⟩ root line) added_empty ht

end Outline.Document

import Outline.Forest.Copy
import Outline.Proofs.Document.Registries
import Outline.Proofs.Document.Steps
import Outline.Proofs.Forest.Descendants

/-!
# Forests that edits lead to

Any sequence of edits on nodes that exist leads from the empty forest to a well-formed one. The
edits include copies, refused moves, and documents read into a forest, also where the reading
breaks off. The main statement spells out what this says about lists, links and walks.
-/

namespace Outline.Forest

open Document

/-- `g` comes from `f` by edits, each of them on nodes that exist. Reading a document may
convert literals, which has to edit in the same way. -/
inductive Edited : Forest → Forest → Prop
  | refl (f : Forest) : Edited f f
  | trans {f g h : Forest} : Edited f g → Edited g h → Edited f h
  | create (f : Forest) (name : String) (value : Option Value) :
      Edited f (f.create name value).2
  | createWithChildren {f : Forest} (name : String) (value : Option Value) {cs : List NodeId}
      (hcs : ∀ c ∈ cs, c < f.size) : Edited f (f.createWithChildren name value cs).2
  | add {f : Forest} {p c : NodeId} (hp : p < f.size) (hc : c < f.size) : Edited f (f.add p c)
  | addRange {f : Forest} {p : NodeId} {cs : List NodeId} (hp : p < f.size)
      (hcs : ∀ c ∈ cs, c < f.size) : Edited f (f.addRange p cs)
  | insertBefore {f : Forest} {s n : NodeId} (hs : s < f.size) (hn : n < f.size) :
      Edited f (f.insertBefore s n)
  | insertAfter {f : Forest} {s n : NodeId} (hs : s < f.size) (hn : n < f.size) :
      Edited f (f.insertAfter s n)
  | untie {f : Forest} {id : NodeId} (hid : id < f.size) : Edited f (f.untie id)
  | clear {f : Forest} {id : NodeId} (hid : id < f.size) : Edited f (f.clear id)
  | setName {f : Forest} {id : NodeId} (name : String) (hid : id < f.size) :
      Edited f (f.setName id name)
  | setValue {f : Forest} {id : NodeId} (value : Option Value) (hid : id < f.size) :
      Edited f (f.setValue id value)
  | deepClone {f : Forest} {id : NodeId} (hid : id < f.size) : Edited f (f.deepClone id).2
  | parseInto {f : Forest} {convert : Convert} (comments : Bool) (source : String)
      {container : NodeId} (hc : container < f.size)
      (hconvert : ∀ tag raw g, Edited g (convert tag raw g).2) :
      Edited f (Document.parseInto convert comments source container f).2

variable {f : Forest}

/-! ## Copies -/

theorem WellFormed.foldl_copy {depth : Nat} {copy : NodeId}
    (hcopy : ∀ id g, g.WellFormed → (copyTree depth id g).2.WellFormed ∧
      g.size ≤ (copyTree depth id g).2.size ∧
        (copyTree depth id g).1 < (copyTree depth id g).2.size)
    (cs : List NodeId) (hf : f.WellFormed) (hc : copy < f.size) :
    (cs.foldl (fun g child =>
      (copyTree depth child g).2.add copy (copyTree depth child g).1) f).WellFormed ∧
    f.size ≤ (cs.foldl (fun g child =>
      (copyTree depth child g).2.add copy (copyTree depth child g).1) f).size := by
  induction cs generalizing f with
  | nil => exact ⟨hf, Nat.le_refl _⟩
  | cons c cs ih =>
    obtain ⟨hwf, hle, hlt⟩ := hcopy c f hf
    have hc' : copy < (copyTree depth c f).2.size := Nat.lt_of_lt_of_le hc hle
    obtain ⟨hwf', hle'⟩ := ih (hwf.add hc' hlt) (by simpa using hc')
    refine ⟨hwf', hle.trans ?_⟩
    simpa using hle'

theorem WellFormed.copyTree (depth : Nat) (id : NodeId) (hf : f.WellFormed) :
    (copyTree depth id f).2.WellFormed ∧ f.size ≤ (copyTree depth id f).2.size ∧
      (copyTree depth id f).1 < (copyTree depth id f).2.size := by
  induction depth generalizing id f with
  | zero => exact ⟨hf.create _ _, by simp [Forest.copyTree], by simp [Forest.copyTree]⟩
  | succ depth ih =>
    -- A nested tree is copied before the node is made, so the node comes from a larger forest.
    have hnode : ∀ (g : Forest) (name : String) (value : Option Value) (cs : List NodeId),
        g.WellFormed → f.size ≤ g.size →
        let h := cs.foldl (fun g' child =>
          (Forest.copyTree depth child g').2.add g.size (Forest.copyTree depth child g').1)
          (g.create name value).2
        h.WellFormed ∧ f.size ≤ h.size ∧ g.size < h.size := by
      intro g name value cs hg hle
      have hlt : g.size < (g.create name value).2.size := by simp
      obtain ⟨hwf, hsize⟩ := WellFormed.foldl_copy (fun id g hg => ih id hg) cs
        (hg.create name value) hlt
      have hlt' := Nat.lt_of_lt_of_le hlt hsize
      exact ⟨hwf, hle.trans hlt'.le, hlt'⟩
    rw [Forest.copyTree]
    split
    rename_i value g heq
    split at heq
    · rename_i container hv
      obtain ⟨hwf, hle, -⟩ := ih container hf
      cases heq
      exact hnode _ _ _ _ hwf hle
    · cases heq
      exact hnode _ _ _ _ hf (Nat.le_refl _)

/-! ## Reading -/

theorem WellFormed.ascend_lt (hf : f.WellFormed) {n : Nat} {id q : NodeId} (hid : id < f.size)
    (h : ascend f n id = some q) : q < f.size := by
  induction n generalizing id with
  | zero =>
    cases h
    exact hid
  | succ n ih =>
    rw [ascend, Option.bind_eq_some_iff] at h
    obtain ⟨p, hp, h⟩ := h
    exact ih (hf.parent_lt hp) h

theorem WellFormed.changeLevel_lt (hf : f.WellFormed) {t : Token} {p q : Place}
    (hp : p.parent < f.size) (h : changeLevel f t p = .ok q) : q.parent < f.size := by
  simp only [changeLevel] at h
  split at h
  · cases h
  · split at h
    · split at h
      · rename_i last hlast
        cases h
        exact hf.child_lt (List.mem_of_getLast? hlast)
      · cases h
    · split at h
      · rename_i parent hparent
        cases h
        exact hf.ascend_lt hp hparent
      · cases h

/-- What `g` has over `f`: it is well formed, and no node got lost. -/
def Extends (f g : Forest) : Prop := g.WellFormed ∧ f.size ≤ g.size

theorem Extends.trans {g h : Forest} (hg : Extends f g) (hh : Extends g h) : Extends f h :=
  ⟨hh.1, hg.2.trans hh.2⟩

section

variable {convert : Convert} {comments : Bool} {container : NodeId}

theorem WellFormed.accept {p : Place} (comments : Bool) (t : Token) (hf : f.WellFormed)
    (hconvert : ∀ tag raw g, g.WellFormed → Extends g (convert tag raw g).2)
    (hc : container < f.size) (hp : p.parent < f.size) :
    match accept convert comments container p t f with
    | (.ok q, g) => Extends f g ∧ q.parent < g.size
    | (.error _, g) => Extends f g := by
  have hself : Extends f f := ⟨hf, Nat.le_refl _⟩
  have hreset : (p.reset container).parent < f.size := reset_lt hc hp
  have hgrow : ∀ n v, Extends f (f.grow (p.reset container).parent n v) := fun n v =>
    ⟨hf.grow hreset n v, by simp⟩
  have hcomment : t.kind.isComment = true →
      match Document.accept convert comments container p t f with
      | (.ok q, g) => Extends f g ∧ q.parent < g.size
      | (.error _, g) => Extends f g := by
    intro ht
    rw [accept_comment f ht]
    cases comments
    · exact ⟨hself, hp⟩
    · exact ⟨hgrow _ _, by simpa using Nat.lt_succ_of_lt hreset⟩
  cases ht : t.kind with
  | name =>
    rw [accept_name f ht]
    split
    · rename_i h
      split at h
      · cases h
      · cases h
        exact ⟨hgrow _ _, by simpa using Nat.lt_succ_of_lt hreset⟩
    · rename_i h
      split at h
      · cases h
        exact hself
      · cases h
  | separator =>
    rw [accept_separator f ht]
    have hempty : Extends f (emptyValue f p) := by
      unfold emptyValue
      split
      · split
        · exact ⟨hf.setValue _ _, by simp⟩
        · exact hself
      · exact hself
    exact ⟨hempty, Nat.lt_of_lt_of_le hp hempty.2⟩
  | type =>
    rw [accept_type f ht]
    exact ⟨hself, hp⟩
  | lineBreak =>
    rw [accept_lineBreak f ht]
    exact ⟨hself, hp⟩
  | space =>
    rw [accept_space f ht]
    cases hl : changeLevel f t p with
    | error e => exact hself
    | ok q =>
      have hq := hf.changeLevel_lt hp hl
      exact ⟨hself, hq⟩
  | lineComment => exact hcomment (by rw [ht]; rfl)
  | blockComment => exact hcomment (by rw [ht]; rfl)
  | value =>
    cases hcur : p.current with
    | none =>
      rw [accept_value_none f ht hcur]
      exact ⟨hself, hp⟩
    | some id =>
      cases hpend : p.pending with
      | none =>
        rw [accept_value_plain f ht hcur hpend]
        exact ⟨⟨hf.setValue _ _, by simp⟩, by simpa using hp⟩
      | some tag =>
        have hconv := hconvert tag t.text f hf
        rw [accept_value_typed f ht hcur hpend]
        rcases hx : convert tag t.text f with ⟨_ | v, g⟩ <;> rw [hx] at hconv
        · exact hconv
        · refine ⟨⟨hconv.1.setValue _ _, ?_⟩, ?_⟩
          · simpa using hconv.2
          · simpa using Nat.lt_of_lt_of_le hp hconv.2

theorem WellFormed.parseInto (hf : f.WellFormed)
    (hconvert : ∀ tag raw g, g.WellFormed → Extends g (convert tag raw g).2)
    (hc : container < f.size) (source : String) :
    Extends f (parseInto convert comments source container f).2 := by
  rw [parseInto_apply]
  cases tokenize source with
  | error e => exact ⟨hf, Nat.le_refl _⟩
  | ok ts =>
    have hstep : ∀ t ∈ ts, ∀ p g, Extends f g ∧ p.parent < g.size →
        match Document.accept convert comments container p t g with
        | (.ok q, g') => Extends f g' ∧ q.parent < g'.size
        | (.error _, g') => Extends f g' := by
      intro t _ p g ⟨hg, hp⟩
      have hone := hg.1.accept comments t hconvert (Nat.lt_of_lt_of_le hc hg.2) hp
      rcases hx : Document.accept convert comments container p t g with ⟨_ | q, g'⟩ <;>
        rw [hx] at hone
      · exact hg.trans hone
      · exact ⟨hg.trans hone.1, hone.2⟩
    have hrun := buildTokens_invariant hstep (p := .start container) (f := f)
      ⟨⟨hf, Nat.le_refl _⟩, hc⟩
    simp only [buildTokens]
    rcases hx : ts.foldlM (Document.accept convert comments container) (.start container) f with
      ⟨_ | q, g⟩ <;> rw [hx] at hrun
    · exact hrun
    · exact hrun.1

end

/-! ## Runs of edits -/

theorem Edited.extends {g : Forest} (h : Edited f g) (hf : f.WellFormed) : Extends f g := by
  induction h with
  | refl => exact ⟨hf, Nat.le_refl _⟩
  | trans _ _ ih ih' => exact (ih hf).trans (ih' (ih hf).1)
  | create _ name value => exact ⟨hf.create name value, by simp⟩
  | createWithChildren name value hcs =>
    exact ⟨hf.createWithChildren name value hcs, by simp [Forest.createWithChildren]⟩
  | add hp hc => exact ⟨hf.add hp hc, by simp⟩
  | addRange hp hcs => exact ⟨hf.addRange hp hcs, by simp⟩
  | insertBefore _ hn => exact ⟨hf.splice hn (by omega), by simp [Forest.insertBefore]⟩
  | insertAfter _ hn => exact ⟨hf.splice hn (by omega), by simp [Forest.insertAfter]⟩
  | untie => exact ⟨hf.untie _, by simp⟩
  | clear => exact ⟨hf.clear _, by simp⟩
  | setName => exact ⟨hf.setName _ _, by simp⟩
  | setValue => exact ⟨hf.setValue _ _, by simp⟩
  | deepClone => exact ⟨(hf.copyTree _ _).1, (hf.copyTree _ _).2.1⟩
  | parseInto comments source hc _ ih =>
    exact hf.parseInto (fun tag raw g hg => ih tag raw g hg) hc source

theorem Edited.wellFormed (h : Edited empty f) : f.WellFormed := (h.extends wellFormed_empty).1

/-! ## Registered readers edit -/

/-- A reader that edits, given that the literals inside its own are read in such a way. -/
def EditingReader (read : Registry.Reader) : Prop :=
  ∀ context : Registry.ReadContext, (∀ tag raw g, Edited g (context.convert tag raw g).2) →
    ∀ raw g, Edited g (read context raw g).2

theorem editingReader_scalar (kind : Value.Kind) : EditingReader (Registry.scalarReader kind) :=
  fun _ _ _ g => .refl g

theorem editingReader_node : EditingReader Registry.nodeReader := by
  intro context hconvert raw g
  have hnew : Edited g (g.create "" none).2 := .create g "" none
  have hread : Edited g (Document.parseInto context.convert false raw g.size
      (g.create "" none).2).2 := hnew.trans (.parseInto false raw (by simp) hconvert)
  rw [Registry.nodeReader, parseDetached]
  simp only [Build.bind_apply, Build.step_apply, create_fst]
  rcases hx : Document.parseInto context.convert false raw g.size (g.create "" none).2 with
    ⟨_ | _, h⟩ <;> rw [hx] at hread <;> exact hread

theorem edited_convert {r : Registry} (hr : ∀ entry ∈ r.readers, EditingReader entry.2)
    (tag raw : String) (g : Forest) : Edited g (r.convert tag raw g).2 :=
  Registry.convert_of_readers
    (P := fun convert => ∀ tag raw g, Edited g (convert tag raw g).2)
    (fun _ => ⟨fun h tag raw _ _ g => h tag raw g, fun h tag raw g => h tag raw tag raw g⟩)
    (fun _ _ _ g => .refl g) (fun entry h context hc _ raw g => hr entry h context hc raw g)
    tag raw g

theorem editingReader_builtin : ∀ entry ∈ Registry.builtin.readers, EditingReader entry.2 :=
  Registry.builtin_readers editingReader_scalar editingReader_node

theorem editingReader_registerType {r : Registry}
    (hr : ∀ entry ∈ r.readers, EditingReader entry.2) (type : Value.TypeKey) (tag : String)
    (write : Value.Custom → String) (read : String → Except String Value.Custom) :
    ∀ entry ∈ (r.registerType type tag write read).readers, EditingReader entry.2 :=
  Registry.registerType_readers type tag write read hr fun _ _ _ g => .refl g

theorem edited_parseInto_builtin (comments : Bool) (source : String) {container : NodeId}
    (hc : container < f.size) :
    Edited f (Document.parseInto Registry.builtin.convert comments source container f).2 :=
  .parseInto comments source hc (edited_convert editingReader_builtin)

/-! ## What a run of edits leads to -/

/-- Whatever edits lead to from the empty forest, also through refusals and broken documents:
only nodes that exist are linked, lists and links agree, no node stands in two places or twice in
one list, and no node is its own ancestor. So all walks end, and they meet what they should. -/
theorem edited_empty_sound (h : Edited empty f) :
    (∀ p c, f.parent c = some p → p < f.size ∧ c < f.size) ∧
      (∀ p c, c ∈ f.children p → p < f.size ∧ c < f.size) ∧
      (∀ p c, c ∈ f.children p ↔ f.parent c = some p) ∧
      (∀ p, (f.children p).Nodup) ∧
      (∀ p q c, c ∈ f.children p → c ∈ f.children q → p = q) ∧
      (∀ id, ¬ Relation.TransGen (fun c p => f.parent c = some p) id id) ∧
      ∀ id, Passes f.parent id (f.lineage id) ∧ f.parent (f.rootOf id) = none ∧
        (∀ a, f.isWithin id a = true ↔ f.Within id a) ∧
        Visits f [id] (f.descendants id) ∧ (f.descendants id).Nodup ∧
        ∀ x, x ∈ f.descendants id ↔ f.Within x id := by
  have hf := (h.extends wellFormed_empty).1
  refine ⟨fun p c hp => ⟨hf.parent_lt hp, lt_size_of_parent hp⟩,
    fun p c hc => ⟨lt_size_of_mem_children hc, hf.child_lt hc⟩, fun p c => hf.mem_children,
    hf.nodup, fun p q c hp hq => ?_, hf.not_cycle, fun id => ?_⟩
  · have hsame := (hf.mem_children.mp hp).symm.trans (hf.mem_children.mp hq)
    exact Option.some.inj hsame
  · have htree := hf.treeOf_descendants id
    exact ⟨hf.passes_lineage id, hf.parent_rootOf id, fun a => hf.isWithin_iff,
      htree.covers.visits, htree.nodup, htree.mem_iff⟩

/-- A run with a refused move, a copy, and a document that breaks off behind its first node. -/
theorem edited_empty_sound_broken_document :
    let f := ((((empty.create "a" none).2.create "b" none).2.add root 1).add 1 2).add 2 1
    let g := (parseInto Registry.builtin.convert false "c\r\n      d" 2 (f.deepClone 1).2)
    g.1.isOk = false ∧ Edited empty g.2 ∧ g.2.children 2 = [5] ∧
      ∀ p c, c ∈ g.2.children p ↔ g.2.parent c = some p := by
  intro f g
  have hmoves : Edited empty f :=
    ((((Edited.create empty "a" none).trans (.create _ "b" none)).trans
      (.add (by decide) (by decide))).trans (.add (by decide) (by decide))).trans
      (.add (by decide) (by decide))
  have hcopy : Edited empty (f.deepClone 1).2 := hmoves.trans (.deepClone (by decide))
  have hg : Edited empty g.2 :=
    hcopy.trans (edited_parseInto_builtin false "c\r\n      d" (by decide))
  exact ⟨by decide +kernel, hg, by decide +kernel, (edited_empty_sound hg).2.2.1⟩

end Outline.Forest

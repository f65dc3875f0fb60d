import Outline.Proofs.Document.Planting

/-!
# Readers that give the same everywhere

What a literal comes to does not depend on the forest it is read in: a scalar is the same value,
and a nested document shows the same grove. So a whole document shows a grove that its lines
describe.
-/

namespace Outline.Document

open Forest Token Build

/-! ## What lines describe -/

/-- What a node holds: a value that is no nested tree, or what its nested tree shows. -/
inductive Content
  | plain (value : Option Value)
  | nested (inner : Grove)

def Content.grove (name : String) (children siblings : Grove) : Content → Grove
  | plain value => .plain name value children siblings
  | nested inner => .nested name inner children siblings

/-- A value has the content, and none of the nodes that it shows is older than `low`. -/
def Bears (f : Forest) (low : Nat) (v : Option Value) : Content → Prop
  | .plain w => v = w ∧ ∀ c, v ≠ some (.node c)
  | .nested inner => ∃ c, v = some (.node c) ∧ low ≤ c ∧ c < f.size ∧ f.name c = "" ∧
      f.value c = none ∧ ShowsFrom f low (f.children c) inner

/-- What the node of a line holds, given what literals come to. -/
def lineContent (content : String → String → Content) : Line → Content
  | .entry _ _ none => .plain none
  | .entry _ _ (some (tag, raw)) =>
    if tag.isEmpty then .plain (some (.string raw)) else content tag raw
  | .comment _ text => .plain (some (.string text))

/-- The grove that lines describe: the deeper lines right behind a line are below it. -/
def groveOf (content : String → String → Content) : List Line → Grove
  | [] => .nil
  | l :: lines =>
    (lineContent content l).grove l.name (groveOf content (lines.takeWhile (l.level < ·.level)))
      (groveOf content (lines.dropWhile (l.level < ·.level)))
termination_by lines => lines.length
decreasing_by
  · exact Nat.lt_succ_of_le (List.takeWhile_prefix _).length_le
  · exact Nat.lt_succ_of_le (List.dropWhile_suffix _).length_le

variable {base f g h k : Forest} {container q id : NodeId} {low level : Nat} {ids : List NodeId}
  {convert : Convert} {comments : Bool} {content : String → String → Content}
  {lines : List Line} {new : List (Line × NodeId)}

/-- Nodes in pre-order, on the levels of lines and with their names and contents, show what the
lines describe. -/
theorem showsFrom_groveOf (h : Lists f level ids (new.map fun x => (x.1.level, x.2)))
    (hnew : ∀ x ∈ new, low ≤ x.2 ∧ x.2 < f.size ∧ f.name x.2 = x.1.name ∧
      Bears f low (f.value x.2) (lineContent content x.1)) :
    ShowsFrom f low ids (groveOf content (new.map (·.1))) := by
  generalize hxs : (new.map fun x => (x.1.level, x.2)) = xs at h
  induction h generalizing new with
  | nil =>
    obtain rfl := List.map_eq_nil_iff.mp hxs
    rw [List.map_nil, groveOf]
    exact .nil
  | @cons level id ids below rest hbelow hrest ihbelow ihrest =>
    obtain ⟨x, tail, rfl, hx, htail⟩ := List.map_eq_cons_iff.mp hxs
    obtain ⟨new₁, new₂, rfl, rfl, rfl⟩ := List.map_eq_append_iff.mp htail
    obtain ⟨hlevel, rfl⟩ := Prod.mk.inj hx
    have hch := ihbelow (fun y hy => hnew y (by simp [hy])) rfl
    have hsib := ihrest (fun y hy => hnew y (by simp [hy])) rfl
    obtain ⟨hlow, hlt, hname, hbears⟩ := hnew x (by simp)
    have hdeep : ∀ l ∈ new₁.map (·.1), decide (x.1.level < l.level) = true := by
      intro l hl
      obtain ⟨y, hy, rfl⟩ := List.mem_map.mp hl
      have hle := hbelow.level_le (y.1.level, y.2) (List.mem_map.mpr ⟨y, hy, rfl⟩)
      simp only [decide_eq_true_eq]
      omega
    have hnext : (new₂.map (·.1)).takeWhile (x.1.level < ·.level) = [] ∧
        (new₂.map (·.1)).dropWhile (x.1.level < ·.level) = new₂.map (·.1) := by
      cases new₂ with
      | nil => simp
      | cons y new₂ =>
        have hy : y.1.level = level := hrest.head_level (y.1.level, y.2) rfl
        simp [hlevel, hy]
    rw [List.map_cons, List.map_append, groveOf, List.takeWhile_append_of_pos hdeep,
      List.dropWhile_append_of_pos hdeep, hnext.1, hnext.2, List.append_nil, ← hname]
    cases hcontent : lineContent content x.1 with
    | plain w =>
      rw [hcontent] at hbears
      obtain ⟨rfl, hscalar⟩ := hbears
      exact .plain hlow hlt hscalar hch hsib
    | nested inner =>
      rw [hcontent] at hbears
      obtain ⟨c, hvalue, hclow, hc, hcname, hcvalue, hinner⟩ := hbears
      exact .nested hlow hlt hvalue hclow hc hcname hcvalue hinner hch hsib

/-! ## Uniform converters -/

/-- Literals come to the same in whatever forest they are read. -/
structure Uniform (convert : Convert) (content : String → String → Content) : Prop
    extends Tidy convert where
  bears : ∀ (tag raw : String) {f g : Forest} {v : Value}, f.WellFormed →
    convert tag raw f = (.ok v, g) → Bears g f.size (some v) (content tag raw)

theorem Bears.congr {v : Option Value} {c : Content} (hb : Bears f low v c)
    (hsize : f.size ≤ g.size) (hsame : SameOn f g low f.size) : Bears g low v c := by
  cases c with
  | plain w => exact hb
  | nested inner =>
    obtain ⟨c, hv, hlow, hc, hname, hvalue, hinner⟩ := hb
    obtain ⟨hname', hvalue', hchildren'⟩ := hsame c hlow hc
    refine ⟨c, hv, hlow, Nat.lt_of_lt_of_le hc hsize, hname'.trans hname, hvalue'.trans hvalue, ?_⟩
    rw [hchildren']
    exact hinner.congr hsize hsame

theorem Bears.mono {v : Option Value} {c : Content} {low' : Nat} (hb : Bears f low v c)
    (hle : low' ≤ low) : Bears f low' v c := by
  cases c with
  | plain w => exact hb
  | nested inner =>
    obtain ⟨c, hv, hlow, hc, hname, hvalue, hinner⟩ := hb
    exact ⟨c, hv, hle.trans hlow, hc, hname, hvalue, hinner.mono hle⟩

theorem not_within_leaf {name : String} (hf : f.WellFormed) (hc : container < f.size)
    (hd : f.descend level container = some q) (hleaf : AddsLeaf base f g container q name)
    (hid : f.size < id) : ¬ g.Within id container := by
  intro hw
  have hmem := ((hleaf.grown.wf.treeOf_descendants container).mem_iff id).mpr hw
  rw [descendants_hang hf hleaf.grown hc hd hleaf.children, List.mem_append,
    List.mem_singleton] at hmem
  rcases hmem with hmem | rfl
  · rcases Relation.ReflTransGen.cases_head
      (((hf.treeOf_descendants container).mem_iff id).mp hmem) with rfl | ⟨y, hy, -⟩
    · exact Nat.lt_asymm hc hid
    · exact Nat.lt_asymm (lt_size_of_parent hy) hid
  · exact Nat.lt_irrefl _ hid

/-- A typed literal comes to its content in the leaf of its line, in every forest that agrees with
this one outside the tree below the container. -/
theorem bears_typed (hu : Uniform convert content) (hf : f.WellFormed) (hc : container < f.size)
    {name tag raw : String} (hd : f.descend level container = some q) (htag : tag.isEmpty = false)
    (hfill : fill convert f.size (some (tag, raw)) (f.grow q name none) = (.ok (), g))
    (hleaf : AddsLeaf base f g container q name) (hk : AgreesOutside container g k) :
    Bears k f.size (g.value f.size) (content tag raw) := by
  have hwf := (hf.grow (hf.descend_lt hc hd) name none).setValue f.size (some (.string ""))
  have hlt := hleaf.size_lt (hf.descend_lt hc hd)
  simp only [fill, bind_apply, edit_apply, htag, Bool.false_eq_true, if_false] at hfill
  rcases hx : convert tag raw ((f.grow q name none).setValue f.size (some (.string ""))) with
    ⟨_ | v, g₁⟩ <;> rw [hx] at hfill
  · cases hfill
  · obtain ⟨-, rfl⟩ := Prod.mk.inj hfill
    have hbears := hu.bears tag raw hwf hx
    rw [size_setValue, size_grow] at hbears
    rw [size_setValue] at hlt
    rw [value_setValue, if_pos ⟨rfl, hlt⟩]
    refine (hbears.congr (by simpa using hk.size_le) fun i hlow hi => ?_).mono (Nat.le_succ _)
    have hi' : i < (g₁.setValue f.size (some v)).size := by simpa using hi
    have hout := not_within_leaf hf hc hd hleaf (Nat.lt_of_succ_le hlow)
    refine ⟨?_, ?_, ?_⟩
    · rw [hk.name i hi', name_setValue]
    · rw [hk.value i hi', value_setValue, if_neg fun h => Nat.ne_of_gt hlow h.1]
    · rw [hk.children i hi' hout, children_setValue]

theorem bears_leaf (hu : Uniform convert content) (hf : f.WellFormed) (hc : container < f.size)
    {line : Line} (hd : f.descend level container = some q)
    (hmakes : Makes convert f q line g) (hleaf : AddsLeaf base f g container q line.name)
    (hk : AgreesOutside container g k) :
    Bears k f.size (k.value f.size) (lineContent content line) := by
  rw [hk.value _ (hleaf.size_lt (hf.descend_lt hc hd))]
  cases line with
  | comment level text =>
    obtain rfl := hmakes
    rw [value_grow, if_pos rfl]
    exact ⟨rfl, fun c h => by cases h⟩
  | entry level name literal =>
    cases literal with
    | none =>
      cases hmakes
      rw [value_grow, if_pos rfl]
      exact ⟨rfl, fun c h => by cases h⟩
    | some l =>
      obtain ⟨tag, raw⟩ := l
      rw [lineContent]
      cases htag : tag.isEmpty with
      | true =>
        simp only [Makes, fill, bind_apply, edit_apply, htag, if_true] at hmakes
        obtain ⟨-, rfl⟩ := Prod.mk.inj hmakes
        rw [if_pos rfl, value_setValue, if_pos ⟨rfl, by simp⟩]
        exact ⟨rfl, fun c h => by cases h⟩
      | false => exact bears_typed hu hf hc hd htag hmakes hleaf hk

theorem Planted.bears (hu : Uniform convert content)
    (hp : Planted convert comments base container f lines h new) (hf : f.WellFormed)
    (hc : container < f.size) (hk : AgreesOutside container h k) (hlow : low ≤ f.size) :
    ∀ x ∈ new, Bears k low (k.value x.2) (lineContent content x.1) := by
  induction hp with
  | nil => simp
  | skip _ _ ih => exact ih hf hc hk hlow
  | @leaf f g h q line lines new hd _ hmakes hleaf hrest ih =>
    have hc' := Nat.lt_of_lt_of_le hc hleaf.grown.size_le
    have hgrown := hrest.grownWithin hleaf.grown.wf hc'
    intro x hx
    rcases List.mem_cons.mp hx with rfl | hx
    · exact (bears_leaf hu hf hc hd hmakes hleaf (hgrown.agrees hleaf.grown.wf hk)).mono hlow
    · exact ih hleaf.grown.wf hc' hk (hlow.trans hleaf.grown.size_le) x hx

/-- A container that was empty shows what its entries describe, once the nodes of comments are
detached. -/
theorem Planted.shows_prune (hu : Uniform convert content)
    (hp : Planted convert comments base container f lines h new) (hf : f.WellFormed)
    (hc : container < f.size) (hempty : f.children container = []) :
    ShowsFrom (h.prune (commentIds new)) f.size
      ((h.prune (commentIds new)).children container)
      (groveOf content (lines.filter (!·.isComment))) := by
  have hentries : (new.filter (!·.1.isComment)).map (·.1) = lines.filter (!·.isComment) := by
    have hcomp : ((fun l : Line => !l.isComment) ∘ fun x : Line × NodeId => x.1) =
        fun x => !x.1.isComment := rfl
    rw [← hcomp, ← List.filter_map, hp.map_fst, List.filter_filter]
    refine List.filter_congr fun l _ => ?_
    cases hl : l.isComment <;> simp [Line.planted, hl]
  rw [← hentries]
  refine showsFrom_groveOf (hp.lists_prune hf hc hempty) fun x hx => ?_
  obtain ⟨hx, -⟩ := List.mem_filter.mp hx
  have hplaced := hp.placed hf hc x hx
  refine ⟨hplaced.ge, ?_, ?_, hp.bears hu hf hc (hp.agrees_prune hf hc) (Nat.le_refl _) x hx⟩
  · rw [size_prune]
    exact hplaced.lt
  · rw [name_prune, hplaced.name]

theorem Planted.shows (hu : Uniform convert content)
    (hp : Planted convert false base container f lines h new) (hf : f.WellFormed)
    (hc : container < f.size) (hempty : f.children container = []) :
    ShowsFrom h f.size (h.children container) (groveOf content (lines.filter (!·.isComment))) := by
  have hnone : commentIds new = [] := by
    refine List.map_eq_nil_iff.mpr (List.filter_eq_nil_iff.mpr fun x hx => ?_)
    have hmem := List.mem_map_of_mem (f := (·.1)) hx
    rw [hp.map_fst] at hmem
    simpa [Line.planted] using (List.mem_filter.mp hmem).2
  have hshows := hp.shows_prune hu hf hc hempty
  rwa [hnone] at hshows

/-! ## Uniform readers -/

/-- A reader that gives the same everywhere, given that the literals inside its own do. -/
def UniformReader (read : Registry.Reader) : Prop :=
  ∀ (context : Registry.ReadContext) (content : String → String → Content),
    Uniform context.convert content → ∃ content', Uniform (fun _ raw => read context raw) content'

theorem uniform_ofExcept {x : String → String → Except Error Value}
    (hx : ∀ tag raw v, x tag raw = .ok v → v.container? = none) :
    ∃ content, Uniform (fun tag raw => Build.ofExcept (x tag raw)) content := by
  refine ⟨fun tag raw => .plain (x tag raw).toOption, tidy_ofExcept hx, fun tag raw f g v _ h => ?_⟩
  rw [ofExcept_apply, Prod.mk.injEq] at h
  refine ⟨by rw [h.1]; rfl, fun c hc => ?_⟩
  obtain rfl := Option.some.inj hc
  cases hx tag raw _ h.1

theorem uniformReader_scalar (kind : Value.Kind) : UniformReader (Registry.scalarReader kind) :=
  fun _ _ _ => uniform_ofExcept fun _ _ _ h => container?_of_readScalar h

theorem uniformReader_node : UniformReader Registry.nodeReader := by
  intro context content hu
  have hcontent : ∀ raw, ∃ c, ∀ (f g : Forest) (v : Value), f.WellFormed →
      Registry.nodeReader context raw f = (.ok v, g) → Bears g f.size (some v) c := by
    intro raw
    cases ht : tokenize raw with
    | error e =>
      refine ⟨.plain none, fun f g v _ h => ?_⟩
      rw [nodeReader_apply, parseInto_apply, ht] at h
      cases (Prod.mk.inj h).1
    | ok ts =>
      obtain ⟨lines, hts⟩ := spells_of_tokenize ht
      refine ⟨.nested (groveOf content (lines.filter (!·.isComment))), fun f g v hf h => ?_⟩
      rw [nodeReader_apply, parseInto_apply, ht] at h
      dsimp only at h
      rcases hx : buildTokens context.convert false f.size ts (f.create "" none).2 with
        ⟨_ | p, k⟩ <;> rw [hx] at h
      · cases (Prod.mk.inj h).1
      · obtain ⟨hv, rfl⟩ := Prod.mk.inj h
        cases hv
        have hstart : Layout f (f.create "" none).2 f.size (.start f.size) .start :=
          .start (.create hf "" rfl) (rising_create f "") (children_create_size f _ _)
        obtain ⟨new, hnew, -⟩ := planted_of_run hu.toTidy hts hstart rfl hx
        have hwf := hf.create "" none
        have hlt : f.size < (f.create "" none).2.size := by simp
        have hgrown := hnew.grownWithin hwf hlt
        refine ⟨f.size, rfl, Nat.le_refl _, Nat.lt_of_lt_of_le hlt hgrown.size_le, ?_, ?_, ?_⟩
        · rw [hgrown.name _ hlt, name_create, if_pos rfl]
        · rw [hgrown.value _ hlt, value_create, if_pos rfl]
        · exact (hnew.shows hu hwf hlt (children_create_size f _ _)).mono hlt.le
  choose content' hcontent' using hcontent
  exact ⟨fun _ raw => content' raw, tidyReader_node context hu.toTidy,
    fun _ raw f g v hf h => hcontent' raw f g v hf h⟩

/-! ## Registries -/

theorem exists_uniform_iff :
    (∃ content, Uniform convert content) ↔
      ∀ tag raw, ∃ content, Uniform (fun _ _ => convert tag raw) content := by
  constructor
  · rintro ⟨content, hu⟩ tag raw
    exact ⟨fun _ _ => content tag raw, tidy_iff.mp hu.toTidy tag raw, fun _ _ => hu.bears tag raw⟩
  · intro h
    choose content hu using h
    exact ⟨fun tag raw => content tag raw tag raw, tidy_iff.mpr fun tag raw => (hu tag raw).toTidy,
      fun tag raw => (hu tag raw).bears tag raw⟩

theorem uniform_throw (e : String → Error) :
    ∃ content, Uniform (fun tag _ => throw (e tag)) content :=
  uniform_ofExcept (x := fun tag _ => .error (e tag)) fun _ _ _ h => by cases h

theorem uniform_convert {r : Registry} (hr : ∀ entry ∈ r.readers, UniformReader entry.2) :
    ∃ content, Uniform r.convert content :=
  Registry.convert_of_readers (P := fun convert => ∃ content, Uniform convert content)
    (fun _ => exists_uniform_iff) (fun tag => uniform_throw fun _ => .unknownType tag)
    fun entry h context ⟨content, hu⟩ => hr entry h context content hu

theorem uniformReader_builtin : ∀ entry ∈ Registry.builtin.readers, UniformReader entry.2 :=
  Registry.builtin_readers uniformReader_scalar uniformReader_node

theorem uniformReader_registerType {r : Registry}
    (hr : ∀ entry ∈ r.readers, UniformReader entry.2) (type : Value.TypeKey) (tag : String)
    (write : Value.Custom → String) (read : String → Except String Value.Custom) :
    ∀ entry ∈ (r.registerType type tag write read).readers, UniformReader entry.2 :=
  Registry.registerType_readers type tag write read hr fun _ _ _ =>
    uniform_ofExcept fun _ _ _ h => container?_of_stating h

end Outline.Document

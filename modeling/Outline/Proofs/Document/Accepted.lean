import Outline.Proofs.Document.Scalars
import Outline.Proofs.Forest.Reachable

/-!
# Documents of any spelling

Whatever text is accepted, and however it is spelled, the nodes of its tree stand in order: what
is below a node or inside it is younger than the node, and a container has neither name nor
value. So the tree shows a grove. Its values are exact if no literal of an inexact type is
among those of the text, at any depth.
-/

namespace Outline.Document

open Forest Registry

variable {f g base : Forest} {id q container : NodeId} {convert : Convert} {source : String}

/-! ## The literals of a text -/

/-- The tag that stands before the next token. -/
def tagBehind (tag : Option String) (t : Token) : Option String :=
  match t.kind with
  | .type => some t.text
  | .name | .value => none
  | _ => tag

/-- Tag and raw text of the literals among tokens. -/
def literalsFrom (tag : Option String) : List Token → List (String × String)
  | [] => []
  | t :: ts =>
    (if t.kind = .value then [(tag.getD "", t.text)] else []) ++ literalsFrom (tagBehind tag t) ts

/-- Tag and raw text of the literals of a text. A literal without a tag has the empty one. -/
def literals (source : String) : List (String × String) :=
  match tokenize source with
  | .ok ts => literalsFrom none ts
  | .error _ => []

/-- No literal has one of the tags, in the text and in `depth` levels of documents nested in it. -/
def Avoids (tags : List String) : Nat → String → Prop
  | 0, _ => True
  | depth + 1, source =>
    ∀ l ∈ literals source, l.1 ∉ tags ∧ (l.1 = "node" → Avoids tags depth l.2)

/-! ## Order among nodes -/

/-- A value may stand at the node `id`: the container of a nested tree is younger and bare, and
all other values are exact. -/
def Fits (f : Forest) (id : NodeId) : Value → Prop
  | .node c => id < c ∧ c < f.size ∧ f.name c = "" ∧ f.value c = none
  | v => Exact v

theorem Exact.fits {v : Value} (hv : Exact v) (f : Forest) (id : NodeId) : Fits f id v := by
  cases v with
  | node c =>
    rcases hv with ⟨s, hs⟩ | h
    · cases hs
    · exact absurd rfl (h.scalar c)
  | _ => exact hv

theorem Fits.of_container {v : Value} (hv : Fits f id v)
    (hc : ∀ c, v = .node c → id < c → c < f.size → f.name c = "" → f.value c = none →
      c < g.size ∧ g.name c = "" ∧ g.value c = none) : Fits g id v := by
  cases v with
  | node c =>
    obtain ⟨hlt, hsize, hname, hvalue⟩ := hv
    exact ⟨hlt, hc c rfl hlt hsize hname hvalue⟩
  | _ => exact hv

/-- Children are younger than their parents, and every value fits. -/
structure Orderly (f : Forest) : Prop where
  wf : f.WellFormed
  parent_lt : ∀ {c p}, f.parent c = some p → p < c
  fits : ∀ {i v}, f.value i = some v → Fits f i v

theorem orderly_empty : Orderly empty := by
  have hbare : ∀ i, empty.slot i = {} := fun i => by
    cases i <;> rfl
  refine ⟨wellFormed_empty, fun {c p} h => ?_, fun {i v} h => ?_⟩
  · rw [Forest.parent, hbare] at h
    cases h
  · rw [Forest.value, hbare] at h
    cases h

/-- All nodes of `f` are in `g`, with the names and values they had. -/
structure Keeps (f g : Forest) : Prop where
  size_le : f.size ≤ g.size
  name : ∀ i < f.size, g.name i = f.name i
  value : ∀ i < f.size, g.value i = f.value i

theorem Keeps.refl (f : Forest) : Keeps f f :=
  ⟨Nat.le_refl _, fun _ _ => rfl, fun _ _ => rfl⟩

theorem Keeps.trans {h : Forest} (hg : Keeps f g) (hh : Keeps g h) : Keeps f h where
  size_le := hg.size_le.trans hh.size_le
  name i hi := (hh.name i (Nat.lt_of_lt_of_le hi hg.size_le)).trans (hg.name i hi)
  value i hi := (hh.value i (Nat.lt_of_lt_of_le hi hg.size_le)).trans (hg.value i hi)

theorem Keeps.grow (f : Forest) (q : NodeId) (n : String) (v : Option Value) :
    Keeps f (f.grow q n v) where
  size_le := by simp
  name i hi := by rw [name_grow, if_neg (Nat.ne_of_lt hi)]
  value i hi := by rw [value_grow, if_neg (Nat.ne_of_lt hi)]

theorem Keeps.create (f : Forest) (n : String) (v : Option Value) :
    Keeps f (f.create n v).2 where
  size_le := by simp
  name i hi := by rw [name_create, if_neg (Nat.ne_of_lt hi)]
  value i hi := by rw [value_create, if_neg (Nat.ne_of_lt hi)]

theorem Keeps.setValue (h : Keeps base f) (hid : base.size ≤ id) (v : Option Value) :
    Keeps base (f.setValue id v) where
  size_le := by simpa using h.size_le
  name i hi := by simpa using h.name i hi
  value i hi := by
    have hne : i ≠ id := Nat.ne_of_lt (Nat.lt_of_lt_of_le hi hid)
    rw [value_setValue, if_neg fun h => hne h.1, h.value i hi]

theorem Fits.keeps {v : Value} (hv : Fits f id v) (h : Keeps f g) : Fits g id v :=
  hv.of_container fun c _ _ hc hname hvalue =>
    ⟨Nat.lt_of_lt_of_le hc h.size_le, (h.name c hc).trans hname, (h.value c hc).trans hvalue⟩

theorem Orderly.grow (hf : Orderly f) (hq : q < f.size) (n : String) :
    Orderly (f.grow q n none) where
  wf := hf.wf.grow hq n none
  parent_lt {c p} h := by
    rw [hf.wf.parent_grow hq] at h
    split at h
    · rename_i hc
      obtain rfl := Option.some.inj h
      rw [hc]
      exact hq
    · exact hf.parent_lt h
  fits {i v} h := by
    rw [value_grow] at h
    split at h
    · cases h
    · exact (hf.fits h).keeps (.grow f q n none)

theorem Orderly.create (hf : Orderly f) (n : String) : Orderly (f.create n none).2 where
  wf := hf.wf.create n none
  parent_lt {c p} h := hf.parent_lt (by simpa using h)
  fits {i v} h := by
    rw [value_create] at h
    split at h
    · cases h
    · exact (hf.fits h).keeps (.create f n none)

/-- A node that is no container may take any value that fits. -/
theorem Orderly.setValue (hf : Orderly f) (hfree : ∀ i, f.value i ≠ some (.node id)) {v : Value}
    (hv : Fits f id v) : Orderly (f.setValue id (some v)) where
  wf := hf.wf.setValue id (some v)
  parent_lt {c p} h := hf.parent_lt (by simpa using h)
  fits {i w} h := by
    have hother : ∀ c, c ≠ id → (f.setValue id (some v)).value c = f.value c := by
      intro c hc
      rw [value_setValue, if_neg fun h => hc h.1]
    have hkeep : ∀ {i w}, Fits f i w → w ≠ .node id → Fits (f.setValue id (some v)) i w := by
      intro i w hw hne
      refine hw.of_container fun c hc _ hlt hname hvalue => ?_
      have hcid : c ≠ id := by
        rintro rfl
        exact hne hc
      exact ⟨by simpa using hlt, by simpa using hname, (hother c hcid).trans hvalue⟩
    rw [value_setValue] at h
    split at h
    · rename_i hi
      obtain rfl := Option.some.inj h
      rw [hi.1]
      refine hkeep hv ?_
      rintro rfl
      exact Nat.lt_irrefl id hv.1
    · refine hkeep (hf.fits h) ?_
      rintro rfl
      exact hfree i h

/-! ## Groves of orderly forests -/

/-- In an orderly forest, the younger nodes come first in the construction of what it shows. -/
theorem Orderly.exists_shows (hf : Orderly f) {ids : List NodeId} (hids : ∀ i ∈ ids, i < f.size) :
    ∃ gr, Shows f ids gr ∧ gr.All Exact := by
  have hbelow : ∀ n ids, (∀ i ∈ ids, i < f.size ∧ f.size ≤ i + n) →
      ∃ gr, Shows f ids gr ∧ gr.All Exact := by
    intro n
    induction n with
    | zero =>
      intro ids hids
      cases ids with
      | nil => exact ⟨.nil, .nil, trivial⟩
      | cons i ids =>
        obtain ⟨hlt, hle⟩ := hids i (by simp)
        exact absurd hlt (Nat.not_lt.mpr hle)
    | succ n ih =>
      have hchildren : ∀ i, f.size ≤ i + (n + 1) →
          ∃ gr, Shows f (f.children i) gr ∧ gr.All Exact := by
        intro i hi
        refine ih _ fun c hc => ⟨hf.wf.child_lt hc, ?_⟩
        have hlt : i + 1 ≤ c := hf.parent_lt (hf.wf.mem_children.mp hc)
        rw [show i + (n + 1) = i + 1 + n from Nat.add_right_comm i n 1] at hi
        exact hi.trans (Nat.add_le_add_right hlt n)
      intro ids hids
      induction ids with
      | nil => exact ⟨.nil, .nil, trivial⟩
      | cons i ids ihids =>
        obtain ⟨hlt, hle⟩ := hids i (by simp)
        obtain ⟨sib, hsib, hsibAll⟩ := ihids fun j hj => hids j (by simp [hj])
        obtain ⟨ch, hch, hchAll⟩ := hchildren i hle
        by_cases hv : ∃ c, f.value i = some (.node c)
        · obtain ⟨c, hc⟩ := hv
          obtain ⟨hic, hcs, hcname, hcvalue⟩ := hf.fits hc
          obtain ⟨inner, hinner, hinnerAll⟩ :=
            hchildren c (hle.trans (Nat.add_le_add_right hic.le _))
          exact ⟨_, .nested (Nat.zero_le _) hlt hc (Nat.zero_le _) hcs hcname hcvalue hinner hch
            hsib, hinnerAll, hchAll, hsibAll⟩
        · have hplain : ∀ c, f.value i ≠ some (.node c) := fun c hc => hv ⟨c, hc⟩
          refine ⟨_, .plain (Nat.zero_le _) hlt hplain hch hsib, fun v hval => ?_, hchAll, hsibAll⟩
          have hfits := hf.fits (Option.mem_def.mp hval)
          cases v with
          | node c => exact absurd hval (hplain c)
          | _ => exact hfits
  exact hbelow f.size ids fun i hi => ⟨hids i hi, Nat.le_add_left _ _⟩

/-! ## Building in order -/

/-- Converting the literal keeps a forest orderly and its nodes as they are. The value fits every
node that was there before. -/
def ConvertsInOrder (convert : Convert) (tag raw : String) : Prop :=
  ∀ (f g : Forest) (v : Value), Orderly f → convert tag raw f = (.ok v, g) →
    Orderly g ∧ Keeps f g ∧ ∀ id < f.size, Fits g id v

/-- Building has come from `base` to `f` and to the place `p`, and `tag` stands before the next
token. The node whose line is being read is new, and no container. -/
structure Progress (base f : Forest) (p : Place) (tag : Option String) : Prop where
  orderly : Orderly f
  keeps : Keeps base f
  parent : p.parent < f.size
  current : ∀ id, p.current = some id →
    base.size ≤ id ∧ id < f.size ∧ ∀ i, f.value i ≠ some (.node id)
  tag : ∀ id, p.current = some id → p.tag = tag

variable {p : Place} {t : Token} {tag : Option String}

theorem Progress.setValue (h : Progress base f p tag) (hcur : p.current = some id) {v : Value}
    (hv : Fits f id v) {p' : Place} {tag' : Option String} (hparent : p'.parent = p.parent)
    (hcurrent : p'.current = p.current) (htag : p'.tag = tag') :
    Progress base (f.setValue id (some v)) p' tag' := by
  obtain ⟨hbase, hlt, hfree⟩ := h.current id hcur
  refine ⟨h.orderly.setValue hfree hv, h.keeps.setValue hbase _, ?_, fun id' hid' => ?_,
    fun _ _ => htag⟩
  · rw [hparent, size_setValue]
    exact h.parent
  · rw [hcurrent] at hid'
    obtain rfl : id = id' := Option.some.inj (hcur.symm.trans hid')
    refine ⟨hbase, by rwa [size_setValue], fun i hi => ?_⟩
    rw [value_setValue] at hi
    split at hi
    · rename_i heq
      obtain rfl := Option.some.inj hi
      exact Nat.lt_irrefl id hv.1
    · exact hfree i hi

/-- A literal that is converted may add nodes, but none of them changes the place. -/
theorem Progress.keep (h : Progress base f p tag) (hg : Orderly g) (hk : Keeps f g) :
    Progress base g p tag where
  orderly := hg
  keeps := h.keeps.trans hk
  parent := Nat.lt_of_lt_of_le h.parent hk.size_le
  current id hid := by
    obtain ⟨hbase, hlt, hfree⟩ := h.current id hid
    refine ⟨hbase, Nat.lt_of_lt_of_le hlt hk.size_le, fun i hi => ?_⟩
    -- A node that holds a container is older than it, so it was there before.
    have hold : i < f.size := Nat.lt_trans (hg.fits hi).1 hlt
    rw [hk.value i hold] at hi
    exact hfree i hi
  tag := h.tag

theorem Progress.move (h : Progress base f p tag) {p' : Place} {tag' : Option String}
    (hparent : p'.parent < f.size) (hcurrent : p'.current = p.current)
    (htag : p.tag = tag → p'.tag = tag') : Progress base f p' tag' :=
  ⟨h.orderly, h.keeps, hparent, fun id hid => h.current id (hcurrent ▸ hid),
    fun id hid => htag (h.tag id (hcurrent ▸ hid))⟩

theorem changeLevel_current {p' : Place} (h : changeLevel f t p = .ok p') :
    p'.current = p.current ∧ p'.tag = p.tag := by
  simp only [changeLevel] at h
  split at h
  · cases h
  · split at h <;> split at h <;> cases h <;> exact ⟨rfl, rfl⟩

/-- A name makes a new node, and no value refers to that. -/
theorem Progress.name (h : Progress base f p tag) (hc : container < base.size)
    (ht : t.kind = .name) {p' : Place}
    (haccept : Document.accept convert false container p t f = (.ok p', g)) :
    Progress base g p' none := by
  have hreset : (p.reset container).parent < f.size :=
    reset_lt (Nat.lt_of_lt_of_le hc h.keeps.size_le) h.parent
  rw [accept_name f ht] at haccept
  simp only [belowComment, Bool.false_and, Bool.false_eq_true, if_false] at haccept
  cases haccept
  refine ⟨h.orderly.grow hreset _, h.keeps.trans (.grow f _ _ _), ?_, ?_, fun _ _ => rfl⟩
  · rw [size_grow]
    exact Nat.lt_succ_of_lt hreset
  · rintro id ⟨⟩
    refine ⟨h.keeps.size_le, by simp, fun i hi => ?_⟩
    rw [value_grow] at hi
    split at hi
    · cases hi
    · exact Nat.lt_irrefl _ (h.orderly.fits hi).2.1

theorem Progress.literal (h : Progress base f p tag) (ht : t.kind = .value)
    (hlit : ConvertsInOrder convert (tag.getD "") t.text) {p' : Place}
    (haccept : Document.accept convert false container p t f = (.ok p', g)) :
    Progress base g p' none := by
  cases hcur : p.current with
  | none =>
    rw [accept_value_none f ht hcur] at haccept
    cases haccept
    exact ⟨h.orderly, h.keeps, h.parent, fun id hid => by simp [hcur] at hid,
      fun id hid => by simp [hcur] at hid⟩
  | some id =>
    cases hpend : p.pending with
    | none =>
      rw [accept_value_plain f ht hcur hpend] at haccept
      cases haccept
      exact h.setValue hcur ((exact_string t.text).fits f id) rfl rfl rfl
    | some name =>
      have hname : tag.getD "" = name := by
        have hsome : p.tag = some name := (Option.filter_eq_some_iff.mp hpend).1
        rw [← h.tag id hcur, hsome]
        rfl
      rw [hname] at hlit
      rw [accept_value_typed f ht hcur hpend] at haccept
      rcases hconv : convert name t.text f with ⟨_ | v, g'⟩ <;> rw [hconv] at haccept
      · cases haccept
      · cases haccept
        obtain ⟨horder, hkeeps, hfits⟩ := hlit _ _ _ h.orderly hconv
        exact (h.keep horder hkeeps).setValue hcur (hfits id (h.current id hcur).2.1) rfl rfl rfl

theorem Progress.accept (h : Progress base f p tag) (hc : container < base.size)
    (hlit : t.kind = .value → ConvertsInOrder convert (tag.getD "") t.text) {p' : Place}
    (haccept : Document.accept convert false container p t f = (.ok p', g)) :
    Progress base g p' (tagBehind tag t) := by
  unfold tagBehind
  cases ht : t.kind with
  | name => exact h.name hc ht haccept
  | value => exact h.literal ht (hlit ht) haccept
  | separator =>
    rw [accept_separator f ht] at haccept
    cases haccept
    unfold emptyValue
    cases hcur : p.current with
    | none => exact h.move h.parent hcur.symm fun htag => htag
    | some id =>
      dsimp only
      split
      · exact h.setValue hcur ((exact_string "").fits f id) rfl hcur.symm (h.tag id hcur)
      · exact h.move h.parent hcur.symm fun htag => htag
  | type =>
    rw [accept_type f ht] at haccept
    cases haccept
    exact h.move h.parent rfl fun _ => rfl
  | lineBreak =>
    rw [accept_lineBreak f ht] at haccept
    cases haccept
    exact h.move h.parent rfl fun htag => htag
  | space =>
    rw [accept_space f ht] at haccept
    cases hl : changeLevel f t p with
    | error e =>
      rw [hl] at haccept
      cases haccept
    | ok q =>
      rw [hl] at haccept
      cases haccept
      obtain ⟨hcurrent, htag⟩ := changeLevel_current hl
      have hlt : q.parent < f.size := h.orderly.wf.changeLevel_lt h.parent hl
      exact h.move hlt hcurrent fun heq => htag.trans heq
  | lineComment | blockComment =>
    rw [accept_comment f (by rw [ht]; rfl)] at haccept
    cases haccept
    exact h.move h.parent rfl fun htag => htag

theorem Progress.run {ts : List Token} (h : Progress base f p tag) (hc : container < base.size)
    (hlit : ∀ l ∈ literalsFrom tag ts, ConvertsInOrder convert l.1 l.2) {p' : Place}
    (hrun : ts.foldlM (Document.accept convert false container) p f = (.ok p', g)) :
    Orderly g ∧ Keeps base g := by
  induction ts generalizing p f tag with
  | nil =>
    cases hrun
    exact ⟨h.orderly, h.keeps⟩
  | cons t ts ih =>
    rw [List.foldlM_cons, Build.bind_apply] at hrun
    rcases hone : Document.accept convert false container p t f with ⟨_ | q, f'⟩ <;>
      rw [hone] at hrun
    · cases hrun
    · have hhead : t.kind = .value → ConvertsInOrder convert (tag.getD "") t.text := by
        intro ht
        exact hlit (tag.getD "", t.text) (by simp [literalsFrom, ht])
      exact ih (h.accept hc hhead hone) (fun l hl => hlit l (by simp [literalsFrom, hl])) hrun

theorem Orderly.parseInto (hf : Orderly f) (hc : container < f.size)
    (hlit : ∀ l ∈ literals source, ConvertsInOrder convert l.1 l.2)
    (hparse : parseInto convert false source container f = (.ok (), g)) :
    Orderly g ∧ Keeps f g := by
  rw [parseInto_apply] at hparse
  cases hts : tokenize source with
  | error e =>
    rw [hts] at hparse
    cases hparse
  | ok ts =>
    simp only [literals, hts] at hlit
    simp only [hts] at hparse
    rcases hrun : buildTokens convert false container ts f with ⟨_ | q, g'⟩ <;>
      rw [hrun] at hparse
    · cases hparse
    · cases hparse
      have hstart : Progress f f (.start container) none :=
        ⟨hf, .refl f, hc, fun id hid => (by cases hid), fun id hid => (by cases hid)⟩
      exact hstart.run hc hlit hrun

/-! ## Literals of the built-in types -/

theorem lookup_builtin {name : String} {read : Reader}
    (h : builtin.readers.lookup name = some read) :
    (∃ k, k ≠ .node ∧ Value.Kind.tag k = name) ∨ name = "single" ∨
      (name = "node" ∧ read = nodeReader) := by
  obtain ⟨l, l', hl, -⟩ := List.lookup_eq_some_iff.mp h
  have hmem : (name, read) ∈ builtin.readers := by simp [hl]
  simp only [builtin, List.mem_append, List.mem_map, List.mem_cons, List.not_mem_nil, or_false,
    Prod.mk.injEq] at hmem
  rcases hmem with ⟨k, hk, rfl, -⟩ | ⟨rfl, -⟩ | ⟨rfl, rfl⟩
  · refine .inl ⟨k, ?_, rfl⟩
    rintro rfl
    exact absurd hk (by decide)
  · exact .inr (.inl rfl)
  · exact .inr (.inr ⟨rfl, rfl⟩)

theorem convertsInOrder_builtin (n : Nat) {name raw : String} (hname : name ∉ inexactTags)
    (hraw : name = "node" → ∀ depth, Avoids inexactTags depth raw) :
    ConvertsInOrder (builtin.convertWithin n) name raw := by
  induction n generalizing name raw with
  | zero =>
    intro f g v _ h
    cases h
  | succ n ih =>
    intro f g v hf h
    cases hread : builtin.readers.lookup name with
    | none =>
      rw [convertWithin, hread] at h
      cases h
    | some read =>
      rcases lookup_builtin hread with ⟨k, hk, rfl⟩ | rfl | ⟨rfl, rfl⟩
      · rw [convertWithin_builtin hk] at h
        obtain ⟨hval, rfl⟩ := Prod.mk.inj h
        exact ⟨hf, .refl f, fun id _ => (exact_of_readScalar hname hval).fits f id⟩
      · exact absurd (by decide) hname
      · -- A nested document is built below a container of its own.
        rw [convertWithin, hread] at h
        simp only [nodeReader, parseDetached, Build.bind_apply, Build.step_apply, create_fst] at h
        have hlit : ∀ l ∈ literals raw, ConvertsInOrder (builtin.convertWithin n) l.1 l.2 := by
          intro l hl
          exact ih (hraw rfl 1 l hl).1 fun hnode depth => (hraw rfl (depth + 1) l hl).2 hnode
        rcases hparse : parseInto (builtin.convertWithin n) false raw f.size
          (f.create "" none).2 with ⟨_ | _, g'⟩ <;> rw [hparse] at h
        · cases h
        · cases h
          obtain ⟨horder, hkeeps⟩ := (hf.create "").parseInto (by simp) hlit hparse
          have hlt : f.size < (f.create "" none).2.size := by simp
          refine ⟨horder, (Keeps.create f "" none).trans hkeeps, fun id hid => ⟨hid, ?_, ?_, ?_⟩⟩
          · exact Nat.lt_of_lt_of_le hlt hkeeps.size_le
          · rw [hkeeps.name _ hlt, name_create, if_pos rfl]
          · rw [hkeeps.value _ hlt, value_create, if_pos rfl]

/-- A document without literals of inexact types shows a grove of exact values, below a root
without name and value. -/
theorem exists_shows_of_parse (hsource : ∀ depth, Avoids inexactTags depth source)
    (hparse : parse builtin.convert false source = .ok f) :
    f.WellFormed ∧ f.name root = "" ∧ f.value root = none ∧
      ∃ gr, Shows f (f.children root) gr ∧ gr.All Exact := by
  have hlit : ∀ l ∈ literals source, ConvertsInOrder builtin.convert l.1 l.2 := by
    intro l hl
    exact convertsInOrder_builtin (l.2.length + 1) (hsource 1 l hl).1 fun hnode depth =>
      (hsource (depth + 1) l hl).2 hnode
  rw [parse] at hparse
  rcases hinto : parseInto builtin.convert false source root empty with ⟨_ | _, g⟩ <;>
    rw [hinto] at hparse
  · cases hparse
  · cases hparse
    obtain ⟨horder, hkeeps⟩ := orderly_empty.parseInto (by decide) hlit hinto
    refine ⟨horder.wf, hkeeps.name root (by decide), hkeeps.value root (by decide), ?_⟩
    exact horder.exists_shows fun i hi => horder.wf.child_lt hi

end Outline.Document

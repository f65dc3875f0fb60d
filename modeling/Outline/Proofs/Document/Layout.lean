import Outline.Proofs.Document.Steps
import Outline.Proofs.Forest.Routes
import Outline.Proofs.Forest.Spine
import Outline.Proofs.Token.Grammar

/-!
# What lines build

A sketch is what a document comes to without a forest: levels and names alone. Building
follows the sketch line by line. It goes on exactly where the sketch does, and then the tree
below the container is the one that was sketched, with new nodes only.
-/

namespace Outline.Document

open Forest Token Build

/-! ## Literals -/

/-- Reading a literal succeeds or fails whatever forest it is read in, and adds nothing but the
tree that its value names. -/
structure Tidy (convert : Convert) : Prop where
  uniform : ∀ (tag raw : String) {f g : Forest}, f.WellFormed → g.WellFormed →
    (convert tag raw f).1.isOk = (convert tag raw g).1.isOk
  adds : ∀ (tag raw : String) {f g : Forest} {v : Value}, f.WellFormed →
    convert tag raw f = (.ok v, g) → Adds f g v.tops
  rising : ∀ (tag raw : String) {f g : Forest} {v : Value}, f.WellFormed →
    convert tag raw f = (.ok v, g) → Rising f.size g

/-- A literal can be read; without a tag it always can. -/
def readable (convert : Convert) (tag raw : String) : Bool :=
  tag.isEmpty || (convert tag raw Forest.empty).1.isOk

/-! ## Sketches -/

/-- A node by its level below the container and its name. -/
structure Row where
  level : Nat
  name : String
  deriving DecidableEq, Repr

/-- What lines come to, without a forest. -/
structure Sketch where
  /-- The level of the last line. -/
  level : Nat
  /-- The names on the way down along the last children. -/
  spine : List String
  /-- All nodes in pre-order. -/
  rows : List Row

namespace Sketch

def start : Sketch := ⟨0, [], []⟩

def Reaches (s : Sketch) (level : Nat) : Prop := level ≤ s.level + 1 ∧ level ≤ s.spine.length

instance (s : Sketch) (level : Nat) : Decidable (s.Reaches level) :=
  inferInstanceAs (Decidable (_ ∧ _))

def belowComment (s : Sketch) (comments : Bool) (level : Nat) : Bool :=
  comments && level != 0 && s.spine[level - 1]? == some commentName

/-- A new node: the way down ends with it. -/
def add (s : Sketch) (level : Nat) (name : String) : Sketch :=
  ⟨level, s.spine.take level ++ [name], s.rows ++ [⟨level, name⟩]⟩

/-- What one more line comes to, if it fits in and its literal can be read. A comment that is
not kept still moves the level, unless it is not indented. -/
def step (comments : Bool) (readable : String → String → Bool) (s : Sketch) :
    Line → Option Sketch
  | .entry level name literal =>
    if s.Reaches level ∧ s.belowComment comments level = false ∧
        literal.all (fun l => readable l.1 l.2) then some (s.add level name)
    else none
  | .comment level _ =>
    if s.Reaches level then
      some (if comments then s.add level commentName
        else if level = 0 then s else { s with level })
    else none

end Sketch

/-! ## Layouts -/

variable {base f g : Forest} {container q : NodeId} {p p' : Place} {s : Sketch} {level : Nat}
  {name : String} {convert : Convert} {comments : Bool}

/-- The node has the name of the row and lies on its level below the container. -/
def Stands (f : Forest) (container : NodeId) (row : Row) (id : NodeId) : Prop :=
  id < f.size ∧ f.name id = row.name ∧ ascend f (row.level + 1) id = some container

/-- Building has come to `f` and to the place `p`, as sketched. -/
structure Drawn (f : Forest) (container : NodeId) (p : Place) (s : Sketch) : Prop where
  wf : f.WellFormed
  container_lt : container < f.size
  place : f.descend s.level container = some p.parent
  level : p.level = s.level
  spine : ∀ j, (f.descend (j + 1) container).map f.name = s.spine[j]?
  nodes : ∃ ids, f.descendants container = container :: ids ∧
    List.Forall₂ (Stands f container) s.rows ids
  ordered : (f.descendants container).Pairwise (· < ·)

namespace Drawn

theorem start (hf : f.WellFormed) (hc : container < f.size) (hch : f.children container = []) :
    Drawn f container (.start container) .start where
  wf := hf
  container_lt := hc
  place := rfl
  level := rfl
  spine j := by simp [descend, hch, Sketch.start]
  nodes := ⟨[], by rw [hf.descendants_eq, hch]; rfl, .nil⟩
  ordered := by
    rw [hf.descendants_eq, hch]
    simp

/-- A level is reached by the way down exactly if the sketch says so. -/
theorem exists_descend (h : Drawn f container p s) (level : Nat) :
    (∃ q, f.descend level container = some q) ↔ level ≤ s.spine.length := by
  cases level with
  | zero => simp [descend]
  | succ j =>
    have hspine := h.spine j
    cases hd : f.descend (j + 1) container with
    | none =>
      rw [hd, Option.map_none, eq_comm, List.getElem?_eq_none_iff] at hspine
      simp
      omega
    | some q =>
      rw [hd, Option.map_some] at hspine
      have hlt := (List.getElem?_eq_some_iff.mp hspine.symm).1
      simp
      omega

theorem descend_lt (h : Drawn f container p s) (hd : f.descend level container = some q) :
    q < f.size := h.wf.descend_lt h.container_lt hd

theorem descendants_lt (h : Drawn f container p s) {x : NodeId}
    (hx : x ∈ f.descendants container) : x < f.size := by
  have hw := ((h.wf.treeOf_descendants container).mem_iff x).mp hx
  rcases Relation.ReflTransGen.cases_head hw with rfl | ⟨y, hy, -⟩
  · exact h.container_lt
  · exact lt_size_of_parent hy

theorem spine_hang (h : Drawn f container p s) (hl : Leaf f g q name)
    (hd : f.descend level container = some q) (j : Nat) :
    (g.descend (j + 1) container).map g.name = (s.add level name).spine[j]? := by
  have hle := (h.exists_descend level).mp ⟨q, hd⟩
  have htake : (s.spine.take level).length = level := List.length_take_of_le hle
  rw [Sketch.add, List.getElem?_append, htake]
  rcases Nat.lt_trichotomy j level with hlt | rfl | hgt
  · rw [if_pos hlt, List.getElem?_take_of_lt hlt, ← h.spine j,
      descend_hang_of_le h.wf hl.grown h.container_lt hd hlt]
    cases hj : f.descend (j + 1) container with
    | none => rfl
    | some x => rw [Option.map_some, Option.map_some, hl.grown.name x (h.descend_lt hj)]
  · rw [if_neg (Nat.lt_irrefl j), Nat.sub_self, descend_hang h.wf hl.grown h.container_lt hd,
      Option.map_some, hl.name]
    rfl
  · rw [if_neg (Nat.not_lt_of_gt hgt),
      descend_hang_of_lt h.wf hl.grown h.container_lt hd hl.children (Nat.succ_lt_succ hgt),
      List.getElem?_eq_none_iff.mpr (by simp; omega)]
    rfl

theorem nodes_hang (h : Drawn f container p s) (hl : Leaf f g q name)
    (hd : f.descend level container = some q) :
    ∃ ids, g.descendants container = container :: ids ∧
      List.Forall₂ (Stands g container) (s.add level name).rows ids := by
  have hq := h.descend_lt hd
  obtain ⟨ids, hids, hrows⟩ := h.nodes
  refine ⟨ids ++ [f.size], ?_, List.rel_append ?_ (.cons ⟨hl.size_lt hq, hl.name, ?_⟩ .nil)⟩
  · rw [descendants_hang h.wf hl.grown h.container_lt hd hl.children, hids, List.cons_append]
  · refine hrows.imp fun row id ⟨hid, hrow, hup⟩ =>
      ⟨Nat.lt_of_lt_of_le hid hl.grown.size_le, ?_, ?_⟩
    · rw [hl.grown.name id hid, hrow]
    · rw [hl.grown.ascend_eq h.wf hid, hup]
  · rw [ascend, hl.parent hq, Option.bind_some, hl.grown.ascend_eq h.wf hq]
    exact h.wf.ascend_of_descend (n := 0) (by rwa [Nat.zero_add])

theorem hang (h : Drawn f container p s) (hl : Leaf f g q name)
    (hd : f.descend level container = some q) (hparent : p'.parent = q)
    (hlevel : p'.level = level) : Drawn g container p' (s.add level name) where
  wf := hl.grown.wf
  container_lt := Nat.lt_of_lt_of_le h.container_lt hl.grown.size_le
  place := by
    rw [hparent]
    exact (descend_hang_of_le h.wf hl.grown h.container_lt hd (Nat.le_refl level)).trans hd
  level := hlevel
  spine := h.spine_hang hl hd
  nodes := h.nodes_hang hl hd
  ordered := by
    rw [descendants_hang h.wf hl.grown h.container_lt hd hl.children]
    refine List.pairwise_append.mpr ⟨h.ordered, List.pairwise_singleton _ _, fun x hx y hy => ?_⟩
    rw [List.mem_singleton.mp hy]
    exact h.descendants_lt hx

end Drawn

/-! ## New trees only -/

/-- All that is new since `base` is the tree below the container, with the trees that its values
name, and every turn leads to a younger node. -/
structure Added (base : Forest) (container : NodeId) (f : Forest) : Prop where
  adds : Adds base f [container]
  rising : Rising base.size f

/-- Building has come from `base` to `f` and to the place `p`, as sketched. -/
structure Layout (base f : Forest) (container : NodeId) (p : Place) (s : Sketch) : Prop
  extends Drawn f container p s, Added base container f

/-- One node was added below `q`, and nothing below it but the tree that its value names. -/
structure AddsLeaf (base f g : Forest) (container q : NodeId) (name : String) : Prop
  extends Leaf f g q name, Added base container g

theorem AddsLeaf.hold {h : Forest} {v : Value} (hl : AddsLeaf base f g container q name)
    (hbase : base.size ≤ f.size) (hq : q < f.size) (hadds : Adds g h v.tops)
    (hrising : Rising g.size h) (hnone : g.turn f.size .inside = none) :
    AddsLeaf base f (h.setValue f.size (some v)) container q name := by
  have hlt := hl.size_lt hq
  exact {
    (hl.toLeaf.trans hq hadds.grown).setValue (some v) with
    adds := hl.adds.hold hadds hbase hlt hnone
    rising := by
      refine (hl.rising.trans hrising hadds.grown).link (turn_setValue
        (Nat.lt_of_lt_of_le hlt hadds.grown.size_le) v _ _) fun c hc => ?_
      have hfresh := (hadds.fresh (b := c) (by simp [Value.tops, hc])).1
      exact Nat.lt_of_lt_of_le hlt hfresh }

namespace Layout

theorem base_le (h : Layout base f container p s) : base.size ≤ container :=
  (h.adds.fresh (by simp)).1

theorem start (hadds : Adds base f [container]) (hrising : Rising base.size f)
    (hch : f.children container = []) : Layout base f container (.start container) .start :=
  { Drawn.start hadds.grown.wf (hadds.fresh (by simp)).2 hch with
    adds := hadds
    rising := hrising }

theorem le_descend (h : Layout base f container p s) (hd : f.descend level container = some q) :
    base.size ≤ q := by
  induction level generalizing q with
  | zero =>
    obtain rfl := Option.some.inj hd
    exact h.base_le
  | succ level ih =>
    rw [descend_succ, Option.bind_eq_some_iff] at hd
    obtain ⟨q', hq', hlast⟩ := hd
    obtain ⟨place, hturn⟩ := exists_turn_of_mem_children (List.mem_of_getLast? hlast)
    exact (h.adds.stays (ih hq') hturn).1

theorem addsLeaf_grow (h : Layout base f container p s) (hd : f.descend level container = some q)
    (name : String) {v : Option Value} (hv : v.bind Value.container? = none) :
    AddsLeaf base f (f.grow q name v) container q name := by
  have hq := h.descend_lt hd
  have hcreate := Adds.create h.wf name hv
  have hturn : ∀ {a t}, (f.create name v).2.turn a t = f.turn a t := by
    intro a t
    rw [turn_create, hv]
    split
    · rename_i heq
      rw [heq.1, turn_of_size_le (Nat.le_refl _)]
    · rfl
  exact {
    leaf_grow h.wf hq name v with
    adds := h.adds.hang hcreate (h.le_descend hd) hq
    rising := by
      have hrising : Rising base.size (f.create name v).2 := fun a t b ha hab =>
        h.rising a t b ha (hturn ▸ hab)
      refine hrising.link (hcreate.grown.wf.turn_add (by simpa using Nat.lt_succ_of_lt hq)
        (hcreate.parent_eq_none h.wf) (h.wf.not_within_new hq name v) _ _) fun b hb => ?_
      rw [← Option.some.inj hb]
      exact hq }

theorem hang (h : Layout base f container p s) (hl : AddsLeaf base f g container q name)
    (hd : f.descend level container = some q) (hparent : p'.parent = q)
    (hlevel : p'.level = level) : Layout base g container p' (s.add level name) :=
  { h.toDrawn.hang hl.toLeaf hd hparent hlevel, hl.toAdded with }

end Layout

/-! ## One line -/

/-- The place behind the tokens of an indentation. -/
def Place.indented (p : Place) (level : Nat) (q : NodeId) : Place :=
  if level = 0 then p else { p with parent := q, level, previous := .space }

theorem Drawn.changeLevel_of_descend (h : Drawn f container p s) {t : Token}
    (ht : t.text.length / 3 = level) (hle : level ≤ s.level + 1)
    (hd : f.descend level container = some q) :
    changeLevel f t p = .ok { p with parent := q, level } := by
  have hplace := h.place
  simp only [changeLevel, ht, h.level]
  rw [if_neg (Nat.not_lt.mpr hle)]
  by_cases hdown : level = s.level + 1
  · rw [hdown, descend_succ, hplace, Option.bind_some] at hd
    rw [if_pos hdown, hd]
  · obtain ⟨k, hk⟩ : ∃ k, s.level = level + k := ⟨s.level - level, by omega⟩
    rw [hk] at hplace
    have hup := h.wf.ascend_of_descend hplace
    rw [if_neg hdown, hk, Nat.add_sub_cancel_left, hup, hd]

theorem Drawn.changeLevel_of_not_reaches (h : Drawn f container p s) {t : Token}
    (ht : t.text.length / 3 = level) (hnot : ¬ s.Reaches level) :
    ∃ e, changeLevel f t p = .error e := by
  simp only [changeLevel, ht, h.level]
  by_cases hfar : s.level + 1 < level
  · exact ⟨_, if_pos hfar⟩
  · have hlast : ¬ ∃ q, f.descend level container = some q := fun hq =>
      hnot ⟨Nat.not_lt.mp hfar, (h.exists_descend level).mp hq⟩
    have hdown : level = s.level + 1 := by
      by_contra hne
      exact hlast (exists_descend_of_le (by omega) h.place)
    have hnone : (f.children p.parent).getLast? = none := by
      rw [hdown, descend_succ, h.place, Option.bind_some] at hlast
      exact Option.eq_none_iff_forall_ne_some.mpr fun q hq => hlast ⟨q, hq⟩
    rw [if_neg hfar, if_pos hdown, hnone]
    exact ⟨_, rfl⟩

theorem foldlM_space {t : Token} (hk : t.kind = .space) (f : Forest) :
    [t].foldlM (accept convert comments container) p f =
      ((changeLevel f t p).map ({ · with previous := .space }), f) := by
  rw [List.foldlM_cons, bind_apply, accept_space f hk]
  cases changeLevel f t p <;> rfl

theorem Indent.text_length {t : Token}
    (ht : t.text = String.ofList (List.replicate (3 * level) ' ')) : t.text.length / 3 = level := by
  rw [ht, String.length_ofList, List.length_replicate]
  omega

theorem build_indent (h : Drawn f container p s) {a : List Token} (ha : Indent a level)
    (hle : level ≤ s.level + 1) (hd : f.descend level container = some q) :
    a.foldlM (accept convert comments container) p f = (.ok (p.indented level q), f) := by
  cases ha with
  | none => rfl
  | some hk hl ht =>
    rw [foldlM_space hk, h.changeLevel_of_descend (Indent.text_length ht) hle hd, Place.indented,
      if_neg hl]
    rfl

theorem build_indent_error (convert : Convert) (comments : Bool) (h : Drawn f container p s)
    {a : List Token} (ha : Indent a level) (hnot : ¬ s.Reaches level) :
    ∃ e, a.foldlM (accept convert comments container) p f = (.error e, f) := by
  cases ha with
  | none => exact absurd ⟨Nat.zero_le _, Nat.zero_le _⟩ hnot
  | some hk _ ht =>
    obtain ⟨e, he⟩ := h.changeLevel_of_not_reaches (Indent.text_length ht) hnot
    exact ⟨e, by rw [foldlM_space hk, he]; rfl⟩

theorem Place.reset_indented (hd : f.descend level container = some q)
    (hprevious : p.previous = .lineBreak) :
    ((p.indented level q).reset container).parent = q ∧
      ((p.indented level q).reset container).level = level := by
  unfold Place.indented
  split
  · rename_i hl
    subst hl
    obtain rfl := Option.some.inj hd
    simp [Place.reset, hprevious]
  · simp [Place.reset]

/-- Take the literal of an entry. Its node holds an empty text in the meantime. -/
def fill (convert : Convert) (id : NodeId) : Option (String × String) → Build Unit
  | none => pure ()
  | some (tag, raw) => do
    Build.edit (·.setValue id (some (.string "")))
    let value ← if tag.isEmpty then pure (.string raw) else convert tag raw
    Build.edit (·.setValue id (some value))

variable {literal : Option (String × String)} {id : NodeId}

theorem build_words_below (convert : Convert) {b : List Token} (hb : Words b name literal)
    (hbelow : belowComment f comments container (p.reset container) = true) :
    ∃ e, b.foldlM (accept convert comments container) p f = (.error e, f) := by
  have hname : ∀ (n : Token) (rest : List Token), n.kind = .name →
      ∃ e, (n :: rest).foldlM (accept convert comments container) p f = (.error e, f) := by
    intro n rest hn
    rw [List.foldlM_cons, bind_apply, accept_name f hn, if_pos hbelow]
    exact ⟨_, rfl⟩
  cases hb with
  | bare hn => exact hname _ _ hn
  | plain hn => exact hname _ _ hn
  | typed hn => exact hname _ _ hn

theorem build_words (convert : Convert) {b : List Token} (hb : Words b name literal)
    (hbelow : belowComment f comments container (p.reset container) = false) :
    ∃ kind, b.foldlM (accept convert comments container) p f =
      match fill convert f.size literal (f.grow (p.reset container).parent name none) with
      | (.ok _, g) => (.ok { p.reset container with
          current := some f.size, tag := none, previous := kind }, g)
      | (.error e, g) => (.error e, g) := by
  have hname : ∀ {n : Token} (rest : List Token), n.kind = .name →
      (n :: rest).foldlM (accept convert comments container) p f =
        rest.foldlM (accept convert comments container) { p.reset container with
          current := some f.size, tag := none, previous := .name }
          (f.grow (p.reset container).parent n.text none) := by
    intro n rest hn
    rw [List.foldlM_cons, bind_apply, accept_name f hn, hbelow]
    rfl
  cases hb with
  | bare hn =>
    refine ⟨.name, ?_⟩
    rw [hname [] hn]
    rfl
  | plain hn hs hv =>
    refine ⟨.value, ?_⟩
    rw [hname _ hn, List.foldlM_cons, bind_apply, accept_separator _ hs]
    simp only [emptyValue, if_true]
    rw [List.foldlM_cons, bind_apply, accept_value_plain _ hv rfl rfl]
    rfl
  | @typed n s t s' v hn hs ht hs' hv =>
    refine ⟨.value, ?_⟩
    rw [hname _ hn, List.foldlM_cons, bind_apply, accept_separator _ hs]
    simp only [emptyValue, if_true]
    rw [List.foldlM_cons, bind_apply, accept_type _ ht]
    simp only
    rw [List.foldlM_cons, bind_apply, accept_separator _ hs']
    simp only [emptyValue, reduceCtorEq, if_false]
    rw [List.foldlM_cons, bind_apply]
    have hpending : ∀ q : Place, q.tag = some t.text →
        q.pending = if t.text.isEmpty then none else some t.text := by
      intro q hq
      rw [Place.pending, hq, Option.filter_some]
      cases t.text.isEmpty <;> rfl
    cases htag : t.text.isEmpty with
    | true =>
      rw [htag, if_pos rfl] at hpending
      rw [accept_value_plain _ hv rfl (hpending _ rfl)]
      simp only [fill, htag, if_true, bind_apply, edit_apply, pure_apply]
      rfl
    | false =>
      rw [htag, if_neg Bool.false_ne_true] at hpending
      rw [accept_value_typed _ hv rfl (hpending _ rfl)]
      simp only [fill, htag, bind_apply, edit_apply, Bool.false_eq_true, if_false]
      rcases convert t.text v.text _ with ⟨_ | _, g⟩ <;> rfl

/-- Filling a new node succeeds exactly if the literal can be read. -/
theorem fill_leaf (hc : Tidy convert) (h : Layout base f container p s)
    (hd : f.descend level container = some q) (name : String)
    (literal : Option (String × String)) :
    match fill convert f.size literal (f.grow q name none) with
    | (.ok _, g) => literal.all (fun l => readable convert l.1 l.2) = true ∧
        AddsLeaf base f g container q name
    | (.error _, _) => literal.all (fun l => readable convert l.1 l.2) = false := by
  have hq := h.descend_lt hd
  have hbase := h.base_le.trans (Nat.le_of_lt h.container_lt)
  have hleaf := h.addsLeaf_grow hd name (v := none) rfl
  match literal with
  | none => exact ⟨rfl, hleaf⟩
  | some (tag, raw) =>
    have hnone : (f.grow q name none).turn f.size .inside = none := by
      simp [turn, value_grow]
    have hempty := hleaf.hold (v := .string "") hbase hq (.refl hleaf.grown.wf)
      (Rising.of_size_le (Nat.le_refl _)) hnone
    have hnone' : ((f.grow q name none).setValue f.size (some (.string ""))).turn f.size .inside =
        none := by
      rw [turn_setValue (hleaf.size_lt hq), if_pos ⟨rfl, rfl⟩]
      rfl
    simp only [fill, bind_apply, edit_apply, Option.all_some, readable]
    cases htag : tag.isEmpty with
    | true =>
      simp only [if_true, Bool.true_or, true_and]
      exact hempty.hold (v := .string raw) hbase hq (.refl hempty.grown.wf)
        (Rising.of_size_le (Nat.le_refl _)) hnone'
    | false =>
      have huniform := hc.uniform tag raw hempty.grown.wf wellFormed_empty
      simp only [Bool.false_eq_true, if_false, Bool.false_or, bind_apply]
      rcases hx : convert tag raw ((f.grow q name none).setValue f.size (some (.string ""))) with
        ⟨_ | v, g⟩
      · rw [hx] at huniform
        exact huniform.symm
      · rw [hx] at huniform
        exact ⟨huniform.symm, hempty.hold hbase hq (hc.adds tag raw hempty.grown.wf hx)
          (hc.rising tag raw hempty.grown.wf hx) hnone'⟩

/-! ## Line by line -/

/-- What building leads to is what the sketch comes to, and `Kept` holds of the forest. -/
inductive Comes (Kept : Forest → Prop) (container : NodeId) :
    Except Error Place × Forest → Option Sketch → Prop
  | ok {p : Place} {g : Forest} {s : Sketch} (h : Drawn g container p s) (hk : Kept g) :
      Comes Kept container (.ok p, g) (some s)
  | error {e : Error} {g : Forest} : Comes Kept container (.error e, g) none

/-- What a line does to a forest in which `Kept` holds. The leaf of an entry is filled exactly if
the literal can be read, and `Kept` holds behind each line. -/
def Tends (convert : Convert) (readable : String → String → Bool) (Kept : Forest → Prop)
    (container : NodeId) : Line → Prop
  | .entry level name literal => ∀ (f : Forest) (p : Place) (s : Sketch) (q : NodeId),
      Drawn f container p s → Kept f → f.descend level container = some q →
        match fill convert f.size literal (f.grow q name none) with
        | (.ok _, g) => literal.all (fun l => readable l.1 l.2) = true ∧ Leaf f g q name ∧ Kept g
        | (.error _, _) => literal.all (fun l => readable l.1 l.2) = false
  | .comment level text => ∀ (f : Forest) (p : Place) (s : Sketch) (q : NodeId),
      Drawn f container p s → Kept f → f.descend level container = some q →
        Kept (f.grow q commentName (some (.string text)))

theorem Drawn.belowComment_eq (h : Drawn f container p s) (comments : Bool)
    (hd : f.descend level container = some q) (hparent : p'.parent = q) :
    belowComment f comments container p' = s.belowComment comments level := by
  unfold Document.belowComment Sketch.belowComment
  rw [hparent]
  cases level with
  | zero =>
    obtain rfl := Option.some.inj hd
    simp
  | succ j =>
    have hspine := h.spine j
    rw [hd, Option.map_some] at hspine
    rw [descend_succ, Option.bind_eq_some_iff] at hd
    obtain ⟨q', hq', hlast⟩ := hd
    have hne : q ≠ container := by
      rintro rfl
      exact h.wf.not_within_child (h.wf.mem_children.mp (List.mem_of_getLast? hlast))
        (h.wf.within_of_descend hq')
    rw [Nat.add_sub_cancel, ← hspine]
    simp [hne]

variable {Kept : Forest → Prop} {rd : String → String → Bool}

theorem comes_entry (comments : Bool) (h : Drawn f container p s) (hk : Kept f)
    (hprevious : p.previous = .lineBreak) {a b : List Token} (ha : Indent a level)
    (hb : Words b name literal) (ht : Tends convert rd Kept container (.entry level name literal)) :
    Comes Kept container ((a ++ b).foldlM (accept convert comments container) p f)
      (s.step comments rd (.entry level name literal)) := by
  rw [List.foldlM_append, bind_apply, Sketch.step]
  by_cases hr : s.Reaches level
  · obtain ⟨q, hd⟩ := (h.exists_descend level).mpr hr.2
    obtain ⟨hparent, hlevel⟩ := Place.reset_indented hd hprevious
    have hbelow := h.belowComment_eq comments hd hparent
    rw [build_indent h ha hr.1 hd]
    dsimp only
    cases hcomment : s.belowComment comments level with
    | true =>
      obtain ⟨e, he⟩ := build_words_below convert hb (hbelow.trans hcomment)
      rw [he, if_neg (by simp)]
      exact .error
    | false =>
      obtain ⟨kind, hrun⟩ := build_words convert hb (hbelow.trans hcomment)
      have hleaf := ht f p s q h hk hd
      rw [hparent] at hrun
      rw [hrun]
      rcases hx : fill convert f.size literal (f.grow q name none) with ⟨_ | _, g⟩ <;>
        rw [hx] at hleaf
      · rw [if_neg fun hall => by simp [hleaf] at hall]
        exact .error
      · rw [if_pos ⟨hr, rfl, hleaf.1⟩]
        exact .ok (h.hang hleaf.2.1 hd hparent hlevel) hleaf.2.2
  · obtain ⟨e, he⟩ := build_indent_error convert comments h ha hr
    rw [he, if_neg fun hall => hr hall.1]
    exact .error

theorem comes_comment (comments : Bool) (h : Drawn f container p s) (hk : Kept f)
    (hprevious : p.previous = .lineBreak) {a : List Token} {t : Token} (ha : Indent a level)
    (hkind : t.kind.isComment = true)
    (ht : Tends convert rd Kept container (.comment level t.text)) :
    Comes Kept container ((a ++ [t]).foldlM (accept convert comments container) p f)
      (s.step comments rd (.comment level t.text)) := by
  rw [List.foldlM_append, bind_apply, Sketch.step]
  by_cases hr : s.Reaches level
  · obtain ⟨q, hd⟩ := (h.exists_descend level).mpr hr.2
    obtain ⟨hparent, hlevel⟩ := Place.reset_indented hd hprevious
    rw [build_indent h ha hr.1 hd, if_pos hr]
    dsimp only
    rw [List.foldlM_cons, bind_apply, accept_comment _ hkind]
    cases comments with
    | true =>
      rw [if_pos rfl, if_pos rfl, hparent]
      exact .ok (h.hang (leaf_grow h.wf (h.descend_lt hd) _ _) hd hparent hlevel)
        (ht f p s q h hk hd)
    | false =>
      simp only [Bool.false_eq_true, if_false]
      refine .ok ?_ hk
      unfold Place.indented
      split
      · exact { h with }
      · exact { h with place := hd, level := rfl }
  · obtain ⟨e, he⟩ := build_indent_error convert comments h ha hr
    rw [he, if_neg hr]
    exact .error

theorem Comes.next {line ts : List Token} {e : Token} {l : Line} {lines : List Line}
    (hline : Comes Kept container (line.foldlM (accept convert comments container) p f)
      (s.step comments rd l)) (he : e.kind = .lineBreak)
    (hrest : ∀ (g : Forest) (p' : Place) (s' : Sketch), Drawn g container p' s' → Kept g →
      p'.previous = .lineBreak →
      Comes Kept container (ts.foldlM (accept convert comments container) p' g)
        (lines.foldlM (Sketch.step comments rd) s')) :
    Comes Kept container ((line ++ e :: ts).foldlM (accept convert comments container) p f)
      ((l :: lines).foldlM (Sketch.step comments rd) s) := by
  rw [List.foldlM_append, bind_apply, List.foldlM_cons]
  rcases hx : line.foldlM (accept convert comments container) p f with ⟨_ | p', g⟩ <;>
    rw [hx] at hline
  · generalize s.step comments rd l = next at hline
    cases hline
    exact .error
  · generalize s.step comments rd l = next at hline
    cases hline with
    | @ok _ _ s' h hk =>
      dsimp only
      rw [List.foldlM_cons, bind_apply, accept_lineBreak _ he]
      exact hrest g { p' with previous := .lineBreak } s' { h with } hk rfl

theorem comes_spells {ts : List Token} {lines : List Line} (hts : Spells ts lines)
    (hlines : ∀ line ∈ lines, Tends convert rd Kept container line) (h : Drawn f container p s)
    (hk : Kept f) (hprevious : p.previous = .lineBreak) :
    Comes Kept container (ts.foldlM (accept convert comments container) p f)
      (lines.foldlM (Sketch.step comments rd) s) := by
  induction hts generalizing f p s with
  | nil => exact .ok h hk
  | last ha hb =>
    have hline := comes_entry comments h hk hprevious ha hb (hlines _ List.mem_cons_self)
    rw [List.foldlM_cons]
    cases hstep : s.step comments rd (.entry _ _ _) with
    | none => rwa [hstep] at hline
    | some s' => rwa [hstep] at hline
  | entry ha hb he _ ih =>
    rw [List.forall_mem_cons] at hlines
    exact (comes_entry comments h hk hprevious ha hb hlines.1).next he
      fun g p' s' h' hk' hp' => ih hlines.2 h' hk' hp'
  | @comment a ts c e level lines ha hkind _ _ he _ ih =>
    rw [List.forall_mem_cons] at hlines
    have hline := comes_comment comments h hk hprevious ha hkind hlines.1
    have hnext := hline.next he fun g p' s' h' hk' hp' => ih hlines.2 h' hk' hp'
    rwa [List.append_assoc, List.singleton_append] at hnext

/-- Tidy converters add trees only, wherever a line stands. -/
theorem tends_added (hc : Tidy convert) (base : Forest) (container : NodeId) (line : Line) :
    Tends convert (readable convert) (Added base container) container line := by
  cases line with
  | entry level name literal =>
    intro f p s q h hadded hd
    have hleaf := fill_leaf hc { h, hadded with } hd name literal
    rcases hx : fill convert f.size literal (f.grow q name none) with ⟨_ | _, g⟩ <;>
      rw [hx] at hleaf
    · exact hleaf
    · exact ⟨hleaf.1, hleaf.2.toLeaf, hleaf.2.toAdded⟩
  | comment level text =>
    intro f p s q h hadded hd
    exact (Layout.addsLeaf_grow { h, hadded with } hd commentName rfl).toAdded

end Outline.Document

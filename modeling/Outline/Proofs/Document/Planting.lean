import Outline.Proofs.Document.Indentation
import Outline.Proofs.Forest.Listing

/-!
# The nodes of lines

Each line makes at most one node: an entry always does, a comment if comments are kept. A node
that was made keeps its name, its value and its place, and the nodes follow each other in
pre-order as the lines do.
-/

namespace Outline

/-! ## Lines and their nodes -/

namespace Token.Line

def level : Line → Nat
  | .entry level _ _ => level
  | .comment level _ => level

def name : Line → String
  | .entry _ name _ => name
  | .comment _ _ => Document.commentName

def row (l : Line) : Document.Row := ⟨l.level, l.name⟩

def isComment : Line → Bool
  | .entry _ _ _ => false
  | .comment _ _ => true

def planted (comments : Bool) (l : Line) : Bool := comments || !l.isComment

end Token.Line

namespace Document

open Forest Token Build

/-- What `f` has is in `g`, and only nodes in the tree below the container have other children. -/
structure AgreesOutside (container : NodeId) (f g : Forest) : Prop extends Keeps f g where
  children : ∀ i < f.size, ¬ f.Within i container → g.children i = f.children i

/-- From `f` to `g` nodes are added, and the old ones stay where they were. -/
structure GrownWithin (container : NodeId) (f g : Forest) : Prop
    extends AgreesOutside container f g where
  wf : g.WellFormed
  parent : ∀ i < f.size, g.parent i = f.parent i

variable {base f g h : Forest} {container q id : NodeId} {p p' : Place} {s : Sketch} {level : Nat}
  {name : String} {convert : Convert} {comments : Bool}

namespace GrownWithin

theorem refl (hf : f.WellFormed) : GrownWithin container f f where
  toKeeps := .refl f
  wf := hf
  parent _ _ := rfl
  children _ _ _ := rfl

theorem within_iff (hg : GrownWithin container f g) (hf : f.WellFormed) (hid : id < f.size) :
    g.Within id q ↔ f.Within id q := by
  constructor
  · intro h
    induction h using Relation.ReflTransGen.head_induction_on with
    | refl => exact .refl
    | @head i j hij _ ih =>
      rw [hg.parent i hid] at hij
      exact .head hij (ih (hf.parent_lt hij))
  · intro h
    induction h using Relation.ReflTransGen.head_induction_on with
    | refl => exact .refl
    | @head i j hij _ ih =>
      refine .head ?_ (ih (hf.parent_lt hij))
      rw [hg.parent i hid]
      exact hij

theorem agrees (hf : f.WellFormed) (hg : GrownWithin container f g)
    (hh : AgreesOutside container g h) : AgreesOutside container f h where
  toKeeps := hg.toKeeps.trans hh.toKeeps
  children i hi hout := by
    rw [hh.children i (Nat.lt_of_lt_of_le hi hg.size_le) fun hw =>
      hout ((hg.within_iff hf hi).mp hw), hg.children i hi hout]

theorem trans (hf : f.WellFormed) (hg : GrownWithin container f g)
    (hh : GrownWithin container g h) : GrownWithin container f h where
  toAgreesOutside := hg.agrees hf hh.toAgreesOutside
  wf := hh.wf
  parent i hi := (hh.parent i (Nat.lt_of_lt_of_le hi hg.size_le)).trans (hg.parent i hi)

theorem ascend_eq (hg : GrownWithin container f g) (hf : f.WellFormed) (hid : id < f.size)
    (k : Nat) : ascend g k id = ascend f k id := by
  induction k generalizing id with
  | zero => rfl
  | succ k ih =>
    rw [ascend, ascend, hg.parent id hid]
    cases hp : f.parent id with
    | none => rfl
    | some p => exact ih (hf.parent_lt hp)

end GrownWithin

theorem AddsLeaf.grownWithin (hl : AddsLeaf base f g container q name)
    (hq : f.Within q container) : GrownWithin container f g where
  size_le := hl.grown.size_le
  name := hl.grown.name
  value := hl.grown.value
  wf := hl.grown.wf
  parent := hl.grown.parent
  children i hi hout := by
    have hne : i ≠ q := by
      rintro rfl
      exact hout hq
    rw [hl.grown.children i hi, if_neg hne, List.append_nil]

/-- The node of the line may stand below `q`. -/
def Admits (comments : Bool) (f : Forest) (container q : NodeId) : Line → Prop
  | .entry _ _ _ => comments = true → f.name q = commentName → q = container
  | .comment _ _ => comments = true

def Makes (convert : Convert) (f : Forest) (q : NodeId) : Line → Forest → Prop
  | .entry _ name literal, g => fill convert f.size literal (f.grow q name none) = (.ok (), g)
  | .comment _ text, g => g = f.grow q commentName (some (.string text))

/-- From `f` to `h` lines were read; the lines that made a node are listed with their nodes. -/
inductive Planted (convert : Convert) (comments : Bool) (base : Forest) (container : NodeId) :
    Forest → List Line → Forest → List (Line × NodeId) → Prop
  | nil (f : Forest) : Planted convert comments base container f [] f []
  | skip {f h : Forest} {level : Nat} {text : String} {lines : List Line}
      {new : List (Line × NodeId)} (hc : comments = false)
      (hrest : Planted convert comments base container f lines h new) :
      Planted convert comments base container f (.comment level text :: lines) h new
  | leaf {f g h : Forest} {q : NodeId} {line : Line} {lines : List Line}
      {new : List (Line × NodeId)} (hd : f.descend line.level container = some q)
      (hadmits : Admits comments f container q line) (hmakes : Makes convert f q line g)
      (hleaf : AddsLeaf base f g container q line.name)
      (hrest : Planted convert comments base container g lines h new) :
      Planted convert comments base container f (line :: lines) h ((line, f.size) :: new)

/-- A node stands where its line says, and below nothing that takes no nodes. -/
structure Placed (comments : Bool) (f h : Forest) (container : NodeId) (line : Line)
    (id : NodeId) : Prop where
  ge : f.size ≤ id
  lt : id < h.size
  name : h.name id = line.name
  ascend : ascend h (line.level + 1) id = some container
  admits : ∀ q, h.parent id = some q → Admits comments h container q line

def commentIds (new : List (Line × NodeId)) : List NodeId :=
  (new.filter (·.1.isComment)).map (·.2)

namespace Planted

variable {lines : List Line} {new : List (Line × NodeId)}

theorem map_fst (hp : Planted convert comments base container f lines h new) :
    new.map (·.1) = lines.filter (Line.planted comments) := by
  induction hp with
  | nil => rfl
  | skip hc _ ih => rw [ih, List.filter_cons_of_neg (by simp [Line.planted, Line.isComment, hc])]
  | @leaf f g h q line lines new _ hadmits _ _ _ ih =>
    have hplanted : line.planted comments = true := by
      cases line with
      | entry => simp [Line.planted, Line.isComment]
      | comment => simp [Line.planted, show comments = true from hadmits]
    rw [List.map_cons, ih, List.filter_cons_of_pos hplanted]

theorem map_fst_of_kept (hp : Planted convert true base container f lines h new) :
    new.map (·.1) = lines :=
  hp.map_fst.trans (List.filter_eq_self.mpr fun _ _ => rfl)

theorem grownWithin (hp : Planted convert comments base container f lines h new)
    (hf : f.WellFormed) (hc : container < f.size) : GrownWithin container f h := by
  induction hp with
  | nil => exact .refl hf
  | skip _ _ ih => exact ih hf hc
  | leaf hd _ _ hleaf _ ih =>
    have hgrown := hleaf.grownWithin (hf.within_of_descend hd)
    exact hgrown.trans hf (ih hgrown.wf (Nat.lt_of_lt_of_le hc hgrown.size_le))

theorem descendants (hp : Planted convert comments base container f lines h new)
    (hf : f.WellFormed) (hc : container < f.size) :
    h.descendants container = f.descendants container ++ new.map (·.2) := by
  induction hp with
  | nil => simp
  | skip _ _ ih => exact ih hf hc
  | leaf hd _ _ hleaf _ ih =>
    rw [ih hleaf.grown.wf (Nat.lt_of_lt_of_le hc hleaf.grown.size_le),
      descendants_hang hf hleaf.grown hc hd hleaf.children, List.map_cons, List.append_assoc,
      List.singleton_append]

theorem nodup (hp : Planted convert comments base container f lines h new)
    (hf : f.WellFormed) (hc : container < f.size) : (new.map (·.2)).Nodup := by
  have htree := ((hp.grownWithin hf hc).wf.treeOf_descendants container).nodup
  rw [hp.descendants hf hc] at htree
  exact (List.nodup_append.mp htree).2.1

theorem placed (hp : Planted convert comments base container f lines h new)
    (hf : f.WellFormed) (hc : container < f.size) :
    ∀ x ∈ new, Placed comments f h container x.1 x.2 := by
  induction hp with
  | nil => simp
  | skip _ _ ih => exact ih hf hc
  | @leaf f g h q line lines new hd hadmits _ hleaf hrest ih =>
    have hc' := Nat.lt_of_lt_of_le hc hleaf.grown.size_le
    have hq := hf.descend_lt hc hd
    have hup := hleaf.parent hq
    have hlt := lt_size_of_parent hup
    have hgrown := hrest.grownWithin hleaf.grown.wf hc'
    intro x hx
    rcases List.mem_cons.mp hx with rfl | hx
    · refine ⟨Nat.le_refl _, Nat.lt_of_lt_of_le hlt hgrown.size_le, ?_, ?_, ?_⟩
      · rw [hgrown.name _ hlt, hleaf.name]
      · rw [hgrown.ascend_eq hleaf.grown.wf hlt, ascend, hup, Option.bind_some,
          hleaf.grown.ascend_eq hf hq]
        exact hf.ascend_of_descend (n := 0) (by rwa [Nat.zero_add])
      · intro q' hq'
        rw [hgrown.parent _ hlt, hup, Option.some.injEq] at hq'
        subst hq'
        have hname : h.name q = f.name q := by
          rw [hgrown.name _ (Nat.lt_of_lt_of_le hq hleaf.grown.size_le), hleaf.grown.name _ hq]
        cases line with
        | entry => exact fun hcomments hq => hadmits hcomments (hname ▸ hq)
        | comment => exact hadmits
    · have hplaced := ih hleaf.grown.wf hc' x hx
      exact { hplaced with ge := hleaf.grown.size_le.trans hplaced.ge }

/-- Below a container that was empty there are the nodes of the lines, on their levels. -/
theorem lists (hp : Planted convert comments base container f lines h new)
    (hf : f.WellFormed) (hc : container < f.size) (hempty : f.children container = []) :
    Lists h 0 (h.children container) (new.map fun x => (x.1.level, x.2)) := by
  refine (hp.grownWithin hf hc).wf.lists_children ?_ fun y hy => ?_
  · rw [hp.descendants hf hc, hf.descendants_eq, hempty, List.map_map]
    rfl
  · obtain ⟨x, hx, rfl⟩ := List.mem_map.mp hy
    exact (hp.placed hf hc x hx).ascend

/-- Below a container that was empty there is nothing but the nodes of the lines. -/
theorem exists_of_within (hp : Planted convert comments base container f lines h new)
    (hf : f.WellFormed) (hc : container < f.size) (hempty : f.children container = [])
    (hw : h.Within id container) (hid : id ≠ container) : ∃ x ∈ new, x.2 = id := by
  have hmem := (((hp.grownWithin hf hc).wf.treeOf_descendants container).mem_iff id).mpr hw
  rw [hp.descendants hf hc, hf.descendants_eq, hempty] at hmem
  simpa [hid] using hmem

/-- A node with the name of comments has no children but nodes of comments. -/
theorem children_comment (hp : Planted convert true base container f lines h new)
    (hf : f.WellFormed) (hc : container < f.size) (hempty : f.children container = [])
    {x : Line × NodeId} (hx : x ∈ new) (hname : x.1.name = commentName) :
    ∀ c ∈ h.children x.2, c ∈ commentIds new := by
  intro c hch
  have hwf := (hp.grownWithin hf hc).wf
  have hplaced := hp.placed hf hc x hx
  have hparent := hwf.mem_children.mp hch
  have hwithin : h.Within x.2 container := within_of_ascend hplaced.ascend
  have hne : c ≠ container := by
    rintro rfl
    exact hwf.not_within_child hparent hwithin
  obtain ⟨y, hy, rfl⟩ := hp.exists_of_within hf hc hempty (.head hparent hwithin) hne
  cases hline : y.1 with
  | comment level text =>
    exact List.mem_map.mpr ⟨y, List.mem_filter.mpr ⟨hy, by rw [hline]; rfl⟩, rfl⟩
  | entry level name literal =>
    have hadmits := (hp.placed hf hc y hy).admits x.2 hparent
    rw [hline] at hadmits
    have htop := hadmits rfl (hplaced.name.trans hname)
    exact absurd hplaced.ge (htop ▸ Nat.not_le_of_gt hc)

theorem agrees_prune (hp : Planted convert comments base container f lines h new)
    (hf : f.WellFormed) (hc : container < f.size) :
    AgreesOutside container h (h.prune (commentIds new)) where
  size_le := (size_prune _ _).ge
  name i _ := name_prune h _ i
  value i _ := value_prune h _ i
  children i _ hout := by
    have hwf := (hp.grownWithin hf hc).wf
    rw [hwf.children_prune]
    refine List.filter_eq_self.mpr fun c hch => ?_
    have hparent := hwf.mem_children.mp hch
    simp only [decide_eq_true_eq]
    intro hgone
    obtain ⟨x, hx, rfl⟩ := List.mem_map.mp hgone
    have hplaced := hp.placed hf hc x (List.mem_filter.mp hx).1
    rcases Relation.ReflTransGen.cases_head (within_of_ascend hplaced.ascend) with heq | ⟨y, hy, hw⟩
    · exact absurd hplaced.ge (heq ▸ Nat.not_le_of_gt hc)
    · obtain rfl := Option.some.inj (hparent.symm.trans hy)
      exact hout hw

theorem lists_prune (hp : Planted convert comments base container f lines h new)
    (hf : f.WellFormed) (hc : container < f.size) (hempty : f.children container = []) :
    Lists (h.prune (commentIds new)) 0 ((h.prune (commentIds new)).children container)
      ((new.filter (!·.1.isComment)).map fun x => (x.1.level, x.2)) := by
  have hwf := (hp.grownWithin hf hc).wf
  have hnodup := hp.nodup hf hc
  have hmem : ∀ x ∈ new, x.2 ∈ commentIds new ↔ x.1.isComment = true := by
    intro x hx
    constructor
    · intro hgone
      obtain ⟨y, hy, heq⟩ := List.mem_map.mp hgone
      obtain ⟨hy, hcomment⟩ := List.mem_filter.mp hy
      rwa [← List.inj_on_of_nodup_map hnodup hy hx heq]
    · exact fun hcomment => List.mem_map.mpr ⟨x, List.mem_filter.mpr ⟨hx, hcomment⟩, rfl⟩
  have hlists := (hp.lists hf hc hempty).prune hwf (commentIds new) fun y hy hgone => by
    obtain ⟨x, hx, rfl⟩ := List.mem_map.mp hy
    have hcomment := (hmem x hx).mp hgone
    cases hline : x.1 with
    | entry => rw [hline] at hcomment; cases hcomment
    | comment level text =>
      obtain ⟨q, hq⟩ := exists_parent_of_ascend (hp.placed hf hc x hx).ascend
      have hcomments := (hp.placed hf hc x hx).admits q hq
      rw [hline] at hcomments
      subst hcomments
      exact hp.children_comment hf hc hempty hx (by rw [hline]; rfl)
  rw [hwf.children_prune]
  refine (congrArg (Lists _ 0 _) ?_).mp hlists
  rw [List.filter_map]
  refine congrArg _ (List.filter_congr fun x hx => ?_)
  have := hmem x hx
  simp [this]

end Planted

/-! ## The nodes of comments -/

/-- The nodes that are made while comments are taken. -/
def commentNodesFrom (convert : Convert) (comments : Bool) (container : NodeId) :
    Place → List Token → Forest → List NodeId
  | _, [], _ => []
  | p, t :: ts, f =>
    match accept convert comments container p t f with
    | (.error _, _) => []
    | (.ok q, g) =>
      (if t.isComment then List.range' f.size (g.size - f.size) else []) ++
        commentNodesFrom convert comments container q ts g

def commentNodes (convert : Convert) (comments : Bool) (ts : List Token) : List NodeId :=
  commentNodesFrom convert comments root (.start root) ts Forest.empty

theorem commentNodesFrom_append {a : List Token} (b : List Token)
    (h : a.foldlM (accept convert comments container) p f = (.ok p', g)) :
    commentNodesFrom convert comments container p (a ++ b) f =
      commentNodesFrom convert comments container p a f ++
        commentNodesFrom convert comments container p' b g := by
  induction a generalizing p f with
  | nil =>
    cases h
    rfl
  | cons t a ih =>
    rw [List.foldlM_cons, bind_apply] at h
    rcases hx : accept convert comments container p t f with ⟨_ | p₁, f₁⟩ <;> rw [hx] at h
    · cases h
    · simp only [List.cons_append, commentNodesFrom, hx, ih h, List.append_assoc]

theorem commentNodesFrom_eq_nil {a : List Token} (ha : ∀ t ∈ a, t.isComment = false) :
    commentNodesFrom convert comments container p a f = [] := by
  induction a generalizing p f with
  | nil => rfl
  | cons t a ih =>
    rw [commentNodesFrom]
    rcases accept convert comments container p t f with ⟨_ | p₁, f₁⟩
    · rfl
    · simp only [ha t (by simp), ih fun t ht => ha t (by simp [ht]), Bool.false_eq_true, if_false,
        List.append_nil]

theorem commentNodesFrom_lineBreak (ts : List Token) (f : Forest) {e : Token}
    (he : e.kind = .lineBreak) : commentNodesFrom convert comments container p (e :: ts) f =
      commentNodesFrom convert comments container { p with previous := .lineBreak } ts f := by
  simp [commentNodesFrom, accept_lineBreak _ he, Token.isComment, he, Kind.isComment]

theorem not_isComment_entry {a b : List Token} {literal : Option (String × String)}
    (ha : Indent a level) (hb : Words b name literal) : ∀ t ∈ a ++ b, t.isComment = false := by
  intro t ht
  rcases List.mem_append.mp ht with ht | ht
  · exact ha.not_isComment t ht
  · exact hb.not_isComment t ht

/-! ## Runs -/

theorem plant_entry (hc : Tidy convert) (h : Layout base f container p s)
    (hprevious : p.previous = .lineBreak) {a b : List Token} {literal : Option (String × String)}
    (ha : Indent a level) (hb : Words b name literal)
    (hrun : (a ++ b).foldlM (accept convert comments container) p f = (.ok p', g)) :
    ∃ q, f.descend level container = some q ∧
      Admits comments f container q (.entry level name literal) ∧
      Makes convert f q (.entry level name literal) g ∧ AddsLeaf base f g container q name ∧
      Layout base g container p' (s.add level name) := by
  rw [List.foldlM_append, bind_apply] at hrun
  have hr : s.Reaches level := by
    by_contra hr
    obtain ⟨e, he⟩ := build_indent_error convert comments h.toDrawn ha hr
    rw [he] at hrun
    cases hrun
  obtain ⟨q, hd⟩ := (h.exists_descend level).mpr hr.2
  obtain ⟨hparent, hlevel⟩ := Place.reset_indented hd hprevious
  rw [build_indent h.toDrawn ha hr.1 hd] at hrun
  dsimp only at hrun
  cases hbelow : belowComment f comments container ((p.indented level q).reset container) with
  | true =>
    obtain ⟨e, he⟩ := build_words_below convert hb hbelow
    rw [he] at hrun
    cases hrun
  | false =>
    obtain ⟨kind, hwords⟩ := build_words convert hb hbelow
    have hleaf := fill_leaf hc h hd name literal
    rw [hwords, hparent] at hrun
    rw [belowComment, hparent] at hbelow
    rcases hx : fill convert f.size literal (f.grow q name none) with ⟨_ | _, k⟩ <;>
      rw [hx] at hleaf hrun
    · cases hrun
    · cases hrun
      refine ⟨q, hd, fun hcomments hname => ?_, hx, hleaf.2, h.hang hleaf.2 hd hparent hlevel⟩
      simpa [hcomments, hname] using hbelow

theorem plant_comment (h : Layout base f container p s) (hprevious : p.previous = .lineBreak)
    {a : List Token} {t : Token} (ha : Indent a level) (ht : t.kind.isComment = true)
    (hrun : (a ++ [t]).foldlM (accept convert comments container) p f = (.ok p', g)) :
    commentNodesFrom convert comments container p (a ++ [t]) f =
        (if comments then [f.size] else []) ∧
      if comments then ∃ q, f.descend level container = some q ∧
          Makes convert f q (.comment level t.text) g ∧
          AddsLeaf base f g container q commentName ∧
          Layout base g container p' (s.add level commentName)
        else g = f ∧ ∃ s', Layout base f container p' s' := by
  rw [List.foldlM_append, bind_apply] at hrun
  have hr : s.Reaches level := by
    by_contra hr
    obtain ⟨e, he⟩ := build_indent_error convert comments h.toDrawn ha hr
    rw [he] at hrun
    cases hrun
  obtain ⟨q, hd⟩ := (h.exists_descend level).mpr hr.2
  obtain ⟨hparent, hlevel⟩ := Place.reset_indented hd hprevious
  rw [commentNodesFrom_append [t] (build_indent h.toDrawn ha hr.1 hd),
    commentNodesFrom_eq_nil ha.not_isComment, List.nil_append]
  rw [build_indent h.toDrawn ha hr.1 hd] at hrun
  dsimp only at hrun
  rw [List.foldlM_cons, bind_apply, accept_comment _ ht] at hrun
  simp only [commentNodesFrom, accept_comment _ ht, Token.isComment, ht, if_true]
  cases comments with
  | true =>
    rw [if_pos rfl, hparent] at hrun
    cases hrun
    have hleaf := h.addsLeaf_grow hd commentName (v := some (.string t.text)) rfl
    exact ⟨by simp, q, hd, rfl, hleaf, h.hang hleaf hd hparent hlevel⟩
  | false =>
    rw [if_neg Bool.false_ne_true] at hrun
    cases hrun
    refine ⟨by simp, rfl, { s with level := if level = 0 then s.level else level }, ?_⟩
    unfold Place.indented
    split
    · exact { h with }
    · exact { h with place := hd, level := rfl }

theorem exists_of_run {line ts : List Token} {e : Token} (he : e.kind = .lineBreak)
    (hrun : (line ++ e :: ts).foldlM (accept convert comments container) p f = (.ok p', h)) :
    ∃ p₁ g, line.foldlM (accept convert comments container) p f = (.ok p₁, g) ∧
      ts.foldlM (accept convert comments container) { p₁ with previous := .lineBreak } g =
        (.ok p', h) := by
  rw [List.foldlM_append, bind_apply] at hrun
  rcases hx : line.foldlM (accept convert comments container) p f with ⟨_ | p₁, g⟩ <;>
    rw [hx] at hrun
  · cases hrun
  · dsimp only at hrun
    rw [List.foldlM_cons, bind_apply, accept_lineBreak _ he] at hrun
    exact ⟨p₁, g, rfl, hrun⟩

theorem planted_of_run (hc : Tidy convert) {ts : List Token} {lines : List Line}
    (hts : Spells ts lines) (h : Layout base f container p s) (hprevious : p.previous = .lineBreak)
    (hrun : ts.foldlM (accept convert comments container) p f = (.ok p', g)) :
    ∃ new, Planted convert comments base container f lines g new ∧
      commentNodesFrom convert comments container p ts f = commentIds new := by
  induction hts generalizing f p s with
  | nil =>
    cases hrun
    exact ⟨[], .nil _, rfl⟩
  | @last a b level name literal ha hb =>
    obtain ⟨q, hd, hadmits, hmakes, hleaf, -⟩ := plant_entry hc h hprevious ha hb hrun
    exact ⟨[(.entry level name literal, f.size)], .leaf hd hadmits hmakes hleaf (.nil g),
      commentNodesFrom_eq_nil (not_isComment_entry ha hb)⟩
  | @entry a b ts e level name literal lines ha hb he _ ih =>
    obtain ⟨p₁, f₁, hline, hrest⟩ := exists_of_run he hrun
    obtain ⟨q, hd, hadmits, hmakes, hleaf, hlayout⟩ := plant_entry hc h hprevious ha hb hline
    have hnext : Layout base f₁ container { p₁ with previous := .lineBreak } _ := { hlayout with }
    obtain ⟨new, hnew, hids⟩ := ih hnext rfl hrest
    refine ⟨(.entry level name literal, f.size) :: new, .leaf hd hadmits hmakes hleaf hnew, ?_⟩
    rw [commentNodesFrom_append _ hline, commentNodesFrom_eq_nil (not_isComment_entry ha hb),
      commentNodesFrom_lineBreak _ _ he, hids]
    rfl
  | @comment a ts c e level lines ha hk _ _ he _ ih =>
    rw [List.append_cons] at hrun ⊢
    obtain ⟨p₁, f₁, hline, hrest⟩ := exists_of_run he hrun
    obtain ⟨hids₁, hplant⟩ := plant_comment h hprevious ha hk hline
    rw [commentNodesFrom_append _ hline, hids₁, commentNodesFrom_lineBreak _ _ he]
    cases comments with
    | true =>
      obtain ⟨q, hd, hmakes, hleaf, hlayout⟩ := hplant
      have hnext : Layout base f₁ container { p₁ with previous := .lineBreak } _ := { hlayout with }
      obtain ⟨new, hnew, hids⟩ := ih hnext rfl hrest
      refine ⟨(.comment level c.text, f.size) :: new, .leaf hd rfl hmakes hleaf hnew, ?_⟩
      rw [hids]
      rfl
    | false =>
      obtain ⟨rfl, s', hlayout⟩ := hplant
      have hnext : Layout base f₁ container { p₁ with previous := .lineBreak } s' :=
        { hlayout with }
      obtain ⟨new, hnew, hids⟩ := ih hnext rfl hrest
      exact ⟨new, .skip rfl hnew, hids⟩

theorem planted_of_parse (hc : Tidy convert) {source : String} {ts : List Token}
    {lines : List Line} (ht : tokenize source = .ok ts) (hts : Spells ts lines)
    (hf : parse convert comments source = .ok f) :
    ∃ new, Planted convert comments ⟨#[]⟩ root Forest.empty lines f new ∧
      commentNodes convert comments ts = commentIds new := by
  rw [parse, parseInto_apply, ht] at hf
  dsimp only at hf
  rcases hx : buildTokens convert comments root ts Forest.empty with ⟨_ | p, g⟩ <;> rw [hx] at hf
  · cases hf
  · cases hf
    exact planted_of_run hc hts (.start adds_empty (rising_empty _) (by decide)) rfl hx

end Document
end Outline

import Outline.Proofs.Document.Uniform

/-!
# Kept comments

A reader that keeps comments builds the tree of a reader that drops them, and besides a node for
each comment. Names are not put below such nodes, nor below nodes that were given their name, but
other comments are.
-/

namespace Outline.Document

open Forest Token

variable {f g : Forest} {r : Registry} {source : String} {ts : List Token} {lines : List Line}

/-- What is left of a tree without its comments is the tree that is built if they are dropped. -/
theorem parse_prune_comments (hr : ∀ entry ∈ r.readers, UniformReader entry.2)
    (ht : tokenize source = .ok ts) (hf : parse r.convert true source = .ok f)
    (hg : parse r.convert false source = .ok g) :
    let pruned := f.prune (commentNodes r.convert true ts)
    ∃ gr, Shows pruned (pruned.children root) gr ∧ Shows g (g.children root) gr := by
  obtain ⟨content, hu⟩ := uniform_convert hr
  obtain ⟨lines, hts⟩ := spells_of_tokenize ht
  obtain ⟨kept, hkept, hids⟩ := planted_of_parse hu.toTidy ht hts hf
  obtain ⟨dropped, hdropped, -⟩ := planted_of_parse hu.toTidy ht hts hg
  have hempty : Forest.empty.children root = [] := by decide
  have hlt : root < Forest.empty.size := by decide
  rw [hids]
  exact ⟨groveOf content (lines.filter (!·.isComment)),
    (hkept.shows_prune hu wellFormed_empty hlt hempty).shows,
    (hdropped.shows hu wellFormed_empty hlt hempty).shows⟩

/-- Comments beside and below one another and behind a line, and one in a nested document. -/
theorem parse_prune_comments_mixed :
    let source := "x:node:\"// c\\r\\ny\"\n   y\n// a\n   // b\nz:int:5\n   // d"
    let convert := Registry.builtin.convert
    ∃ ts f g, tokenize source = .ok ts ∧ parse convert true source = .ok f ∧
      parse convert false source = .ok g ∧ commentNodes convert true ts = [5, 6, 8] ∧
      let pruned := f.prune (commentNodes convert true ts)
      ∃ gr, Shows pruned (pruned.children root) gr ∧ Shows g (g.children root) gr := by
  intro source convert
  have hkept : (parse convert true source).isOk = true := by decide +kernel
  have hdropped : (parse convert false source).isOk = true := by decide +kernel
  have hnodes : (tokenize source).toOption.map (commentNodes convert true) = some [5, 6, 8] := by
    decide +kernel
  cases ht : tokenize source with
  | error e =>
    rw [ht] at hnodes
    cases hnodes
  | ok ts =>
    rw [ht] at hnodes
    cases hf : parse convert true source with
    | error e =>
      rw [hf] at hkept
      cases hkept
    | ok f =>
      cases hg : parse convert false source with
      | error e =>
        rw [hg] at hdropped
        cases hdropped
      | ok g =>
        exact ⟨ts, f, g, rfl, rfl, rfl, Option.some.inj hnodes,
          parse_prune_comments uniformReader_builtin ht hf hg⟩

/-! ## What stands below a comment -/

/-- A comment as the name of its node. -/
def commentAsName (t : Token) : Token :=
  if t.isComment then { t with kind := .name, text := commentName } else t

/-- The names and comments of a text with the levels of their lines. -/
def nodeRows (ts : List Token) : List Row := entries (ts.map commentAsName)

theorem map_commentAsName {a : List Token} (ha : ∀ t ∈ a, t.isComment = false) :
    a.map commentAsName = a := by
  induction a with
  | nil => rfl
  | cons t a ih =>
    rw [List.map_cons, ih fun t ht => ha t (by simp [ht]), commentAsName, ha t (by simp),
      if_neg Bool.false_ne_true]

theorem nodeRows_of_spells (h : Spells ts lines) :
    nodeRows ts = lines.map Line.row := by
  unfold nodeRows entries
  induction h with
  | nil => rfl
  | @last a b level name literal ha hb =>
    have hwords := entriesFrom_words hb level []
    rw [List.append_nil] at hwords
    rw [map_commentAsName (not_isComment_entry ha hb), entriesFrom_indent ha, hwords]
    rfl
  | @entry a b ts e level name literal lines ha hb he _ ih =>
    have hbreak : commentAsName e = e := by
      simp [commentAsName, Token.isComment, he, Kind.isComment]
    have hskip : ∀ ts, entriesFrom 0 (e :: ts) = entriesFrom 0 ts := by simp [entriesFrom, he]
    rw [List.map_append, map_commentAsName (not_isComment_entry ha hb), List.map_cons, hbreak,
      List.append_assoc, entriesFrom_indent ha, entriesFrom_words hb, hskip, ih]
    rfl
  | @comment a ts c e level lines ha hc _ _ he _ ih =>
    have hbreak : commentAsName e = e := by
      simp [commentAsName, Token.isComment, he, Kind.isComment]
    have hname : ∀ ts, entriesFrom level (commentAsName c :: e :: ts) =
        ⟨level, commentName⟩ :: entriesFrom 0 ts := by
      simp [commentAsName, Token.isComment, hc, entriesFrom, he]
    rw [List.map_append, map_commentAsName ha.not_isComment, List.map_cons, List.map_cons, hbreak,
      entriesFrom_indent ha, hname, ih]
    rfl

/-- The row that a row of the given level stands below, behind the rows `above`. -/
def owner? (above : List Row) (level : Nat) : Option Row :=
  (above.filter (·.level < level)).getLast?

/-- A row stands below one with the name of comments. -/
def BelowComment (rows : List Row) : Prop :=
  ∃ above row rest, rows = above ++ row :: rest ∧
    ∃ o ∈ owner? above row.level, o.name = commentName

variable {base h : Forest} {container : NodeId} {convert : Convert} {comments : Bool}

/-- The owner of a line is the line of the parent of its node. -/
theorem Planted.owner {above rest : List (Line × NodeId)} {x : Line × NodeId}
    (hp : Planted convert comments base container f lines h (above ++ x :: rest))
    (hf : f.WellFormed) (hc : container < f.size) (hempty : f.children container = []) :
    (owner? (above.map (·.1.row)) x.1.level = none ∧ h.parent x.2 = some container) ∨
      ∃ y ∈ above, owner? (above.map (·.1.row)) x.1.level = some y.1.row ∧
        h.parent x.2 = some y.2 := by
  have hwf := (hp.grownWithin hf hc).wf
  have hlists := hp.lists hf hc hempty
  rw [List.map_append, List.map_cons] at hlists
  rcases hlists.owner with ⟨hlevel, hmem⟩ | ⟨o, ho, hmem⟩
  · refine .inl ⟨?_, hwf.mem_children.mp hmem⟩
    have hzero : x.1.level = 0 := hlevel
    simp [owner?, hzero]
  · rw [List.filter_map, List.getLast?_map, Option.map_eq_some_iff] at ho
    obtain ⟨y, hy, rfl⟩ := ho
    refine .inr ⟨y, (List.mem_filter.mp (List.mem_of_getLast? hy)).1, ?_, hwf.mem_children.mp hmem⟩
    rw [owner?, List.filter_map, List.getLast?_map, Option.map_eq_some_iff]
    exact ⟨y, hy, rfl⟩

/-- A node with the name of comments has a child exactly if a row stands below such a row. -/
theorem Planted.exists_child_iff {new : List (Line × NodeId)}
    (hp : Planted convert comments base container f lines h new) (hf : f.WellFormed)
    (hc : container < f.size) (hempty : f.children container = [])
    (hname : f.name container ≠ commentName) :
    (∃ id ∈ h.descendants container, h.name id = commentName ∧ h.children id ≠ []) ↔
      BelowComment (new.map (·.1.row)) := by
  have hgrown := hp.grownWithin hf hc
  have htree := (hgrown.wf.treeOf_descendants container).mem_iff
  constructor
  · rintro ⟨id, hid, hcomment, hchildren⟩
    obtain ⟨c, hch⟩ := List.exists_mem_of_ne_nil _ hchildren
    have hparent := hgrown.wf.mem_children.mp hch
    have hwithin := (htree id).mp hid
    have hne : c ≠ container := by
      rintro rfl
      exact hgrown.wf.not_within_child hparent hwithin
    obtain ⟨x, hx, rfl⟩ := hp.exists_of_within hf hc hempty (.head hparent hwithin) hne
    obtain ⟨above, rest, rfl⟩ := List.append_of_mem hx
    rcases hp.owner hf hc hempty with ⟨-, htop⟩ | ⟨y, hy, howner, hup⟩
    · obtain rfl := Option.some.inj (hparent.symm.trans htop)
      exact absurd ((hgrown.name _ hc).symm.trans hcomment) hname
    · obtain rfl := Option.some.inj (hparent.symm.trans hup)
      refine ⟨above.map (·.1.row), x.1.row, rest.map (·.1.row), by simp, y.1.row, howner, ?_⟩
      exact (hp.placed hf hc y (by simp [hy])).name.symm.trans hcomment
  · rintro ⟨above', row, rest', hrows, o, howner, hcomment⟩
    obtain ⟨above, tail, rfl, rfl, htail⟩ := List.map_eq_append_iff.mp hrows
    obtain ⟨x, rest, rfl, rfl, rfl⟩ := List.map_eq_cons_iff.mp htail
    rcases hp.owner hf hc hempty with ⟨hnone, -⟩ | ⟨y, hy, hsome, hup⟩
    · rw [Line.row, hnone] at howner
      cases howner
    · rw [Line.row, hsome] at howner
      obtain rfl := Option.some.inj howner
      have hplaced := hp.placed hf hc y (by simp [hy])
      refine ⟨y.2, (htree y.2).mpr (within_of_ascend hplaced.ascend),
        hplaced.name.trans hcomment, ?_⟩
      exact List.ne_nil_of_mem (hgrown.wf.mem_children.mpr hup)

/-- Whatever stands below a node with the name of comments is a comment itself. There is such a
node exactly if a comment stands in the text below another one, or below that name. -/
theorem comment_children {r : Registry} (hr : ∀ entry ∈ r.readers, TidyReader entry.2)
    (ht : tokenize source = .ok ts) (hf : parse r.convert true source = .ok f) :
    (∀ id ∈ f.descendants root, f.name id = commentName →
        ∀ c ∈ f.children id, c ∈ commentNodes r.convert true ts) ∧
      ((∃ id ∈ f.descendants root, f.name id = commentName ∧ f.children id ≠ []) ↔
        BelowComment (nodeRows ts)) := by
  obtain ⟨lines, hts⟩ := spells_of_tokenize ht
  obtain ⟨new, hnew, hids⟩ := planted_of_parse (tidy_convert hr) ht hts hf
  have hempty : Forest.empty.children root = [] := by decide
  have hlt : root < Forest.empty.size := by decide
  have hname : Forest.empty.name root ≠ commentName := by decide
  have hgrown := hnew.grownWithin wellFormed_empty hlt
  have hrows : nodeRows ts = new.map (·.1.row) := by
    rw [nodeRows_of_spells hts, ← hnew.map_fst_of_kept, List.map_map]
    rfl
  rw [hrows, hids]
  refine ⟨fun id hid hcomment => ?_, hnew.exists_child_iff wellFormed_empty hlt hempty hname⟩
  have hwithin := ((hgrown.wf.treeOf_descendants root).mem_iff id).mp hid
  have hne : id ≠ root := by
    rintro rfl
    exact hname ((hgrown.name _ hlt).symm.trans hcomment)
  obtain ⟨x, hx, rfl⟩ := hnew.exists_of_within wellFormed_empty hlt hempty hwithin hne
  exact hnew.children_comment wellFormed_empty hlt hempty hx
    ((hnew.placed wellFormed_empty hlt x hx).name.symm.trans hcomment)

/-- An indented comment behind another one is taken for its child. -/
theorem comment_children_nested :
    let source := "// c\n   // d"
    let convert := Registry.builtin.convert
    ∃ ts f, tokenize source = .ok ts ∧ parse convert true source = .ok f ∧
      nodeRows ts = [⟨0, ".."⟩, ⟨1, ".."⟩] ∧ commentNodes convert true ts = [1, 2] ∧
      (∀ id ∈ f.descendants root, f.name id = commentName →
        ∀ c ∈ f.children id, c ∈ commentNodes convert true ts) ∧
      ∃ id ∈ f.descendants root, f.name id = commentName ∧ f.children id ≠ [] := by
  intro source convert
  have htokens : (tokenize source).toOption.map (fun ts => (nodeRows ts,
      commentNodes convert true ts)) = some ([⟨0, ".."⟩, ⟨1, ".."⟩], [1, 2]) := by
    decide +kernel
  have hkept : (parse convert true source).isOk = true := by decide +kernel
  cases ht : tokenize source with
  | error e =>
    rw [ht] at htokens
    cases htokens
  | ok ts =>
    rw [ht] at htokens
    obtain ⟨hrows, hnodes⟩ := Prod.mk.inj (Option.some.inj htokens)
    cases hf : parse convert true source with
    | error e =>
      rw [hf] at hkept
      cases hkept
    | ok f =>
      obtain ⟨hchildren, hiff⟩ := comment_children tidyReader_builtin ht hf
      refine ⟨ts, f, rfl, rfl, hrows, hnodes, hchildren, hiff.mpr ?_⟩
      exact ⟨[⟨0, ".."⟩], ⟨1, ".."⟩, [], hrows, ⟨0, ".."⟩, rfl, rfl⟩

end Outline.Document

import Outline.Proofs.Document.Reads

/-!
# Building what was written

The tokens of a grove build it below the node where its lines belong. A line of some level
belongs to the node that stands open at that level, and a finished tree leaves the levels above
it open.
-/

namespace Outline.Document

open Forest
open Token (Shape valueShapes lineShapes PlainTag)

variable {convert : Convert} {container q id : NodeId} {level : Nat} {p : Place} {f g : Forest}

/-- The next line of the given level becomes a child of `q`. -/
structure Opens (f : Forest) (container q : NodeId) (level : Nat) (p : Place) : Prop where
  previous : p.previous = .lineBreak
  top : level = 0 → q = container
  change : level ≠ 0 → ∀ t : Token, t.text.length / 3 = level →
    changeLevel f t p = .ok { p with parent := q, level }

/-- The place is at `q`, which stands open at the given level, or somewhere below it. -/
structure Below (f : Forest) (q : NodeId) (level : Nat) (p : Place) : Prop where
  previous : p.previous = .lineBreak
  ascends : ∃ n, p.level = level + n ∧ ascend f n p.parent = some q

theorem Below.opens (h : Below f q level p) (htop : level = 0 → q = container) :
    Opens f container q level p := by
  obtain ⟨n, hlevel, hasc⟩ := h.ascends
  refine ⟨h.previous, htop, fun _ t ht => ?_⟩
  have hjump : ¬ p.level + 1 < level := by omega
  have hdown : ¬ level = p.level + 1 := by omega
  have hn : p.level - level = n := by omega
  simp only [changeLevel, ht, hjump, hdown, hn, hasc, if_false]

theorem ascend_add_one (f : Forest) (n : Nat) (id : NodeId) :
    ascend f (n + 1) id = (ascend f n id).bind f.parent := by
  induction n generalizing id with
  | zero => simp [ascend]
  | succ n ih =>
    rw [ascend]
    conv => rhs; rw [ascend]
    cases f.parent id with
    | none => rfl
    | some p => exact ih p

theorem Below.up (h : Below f id (level + 1) p) (hq : f.parent id = some q) :
    Below f q level p := by
  obtain ⟨n, hlevel, hasc⟩ := h.ascends
  refine ⟨h.previous, n + 1, by omega, ?_⟩
  rw [ascend_add_one, hasc]
  exact hq

theorem opens_children (hprev : p.previous = .lineBreak) (hlevel : p.level = level)
    (hlast : (f.children p.parent).getLast? = some id) :
    Opens f container id (level + 1) p := by
  refine ⟨hprev, fun h => absurd h (Nat.succ_ne_zero level), fun _ t ht => ?_⟩
  simp [changeLevel, ht, hlevel, hlast]

theorem shape_eq {t : Token} {k : Token.Kind} {s : String} (h : t.shape = (k, s.toList)) :
    t.kind = k ∧ t.text = s := by
  obtain ⟨hk, hs⟩ := Prod.mk.inj h
  exact ⟨hk, String.toList_inj.mp hs⟩

/-! ## One line -/

def Place.atName (q : NodeId) (level : Nat) (id : NodeId) : Place :=
  ⟨q, level, some id, none, .name⟩

def Place.atEnd (q : NodeId) (level : Nat) (id : NodeId) : Place :=
  ⟨q, level, some id, none, .lineBreak⟩

theorem build_name {ts : List Token} {name : String} (hopen : Opens f container q level p)
    (hts : ts.map Token.shape =
      (if level = 0 then [] else [(.space, List.replicate (3 * level) ' ')]) ++
        [(.name, name.toList)]) :
    ts.foldlM (accept convert false container) p f =
      (.ok (.atName q level f.size), f.grow q name none) := by
  have hname : ∀ (t : Token) (p' : Place), t.shape = (.name, name.toList) →
      p'.reset container = { p' with parent := q, level } →
      accept convert false container p' t f =
        (.ok (.atName q level f.size), f.grow q name none) := by
    intro t p' ht hreset
    obtain ⟨hk, rfl⟩ := shape_eq ht
    rw [accept_name f hk, hreset]
    simp [belowComment, Place.atName]
  by_cases hl : level = 0
  · subst hl
    obtain rfl := hopen.top rfl
    simp only [if_true, List.nil_append, List.map_eq_singleton_iff] at hts
    obtain ⟨t, rfl, ht⟩ := hts
    have hone := hname t p ht (by simp [Place.reset, hopen.previous])
    simp only [List.foldlM_cons, List.foldlM_nil, Build.bind_apply, hone, Build.pure_apply]
  · simp only [if_neg hl, List.singleton_append, List.map_eq_cons_iff, List.map_eq_nil_iff] at hts
    obtain ⟨s, _, rfl, hs, t, _, rfl, ht, rfl⟩ := hts
    obtain ⟨hk, htext⟩ := Prod.mk.inj hs
    have hwidth : s.text.length / 3 = level := by
      rw [← String.length_toList, htext]
      simp
    have hspace : accept convert false container p s f =
        ((changeLevel f s p).map ({ · with previous := .space }), f) := accept_space f hk
    rw [hopen.change hl s hwidth] at hspace
    have hone := hname t { p with parent := q, level, previous := .space } ht
      (by simp [Place.reset])
    simp only [List.foldlM_cons, List.foldlM_nil, Build.bind_apply, hspace, Except.map, hone,
      Build.pure_apply]

/-- What the literal of a line becomes: texts are taken as they are, others are converted, while
the node holds an empty text. -/
def Converts (convert : Convert) (f : Forest) (tag text : String) (v : Value) (g : Forest) :
    Prop :=
  (tag = "string" ∧ v = .string text ∧ g = f) ∨
    (tag ≠ "string" ∧ tag ≠ "" ∧ convert tag text f = (.ok v, g))

theorem build_value {ts : List Token} {tag text : String} {v : Value}
    (hts : ts.map Token.shape = valueShapes tag text)
    (hv : Converts convert (f.setValue id (some (.string ""))) tag text v g) :
    ts.foldlM (accept convert false container) (.atName q level id) f =
      (.ok ⟨q, level, some id, none, .value⟩, g.setValue id (some v)) := by
  have hsep : ∀ t : Token, t.kind = .separator →
      accept convert false container (.atName q level id) t f =
        (.ok ⟨q, level, some id, none, .separator⟩, f.setValue id (some (.string ""))) :=
    fun t hk => accept_separator f hk
  rcases hv with ⟨rfl, rfl, rfl⟩ | ⟨hs, hne, hconv⟩
  · rw [Token.valueShapes_string] at hts
    simp only [List.map_eq_cons_iff, List.map_eq_nil_iff] at hts
    obtain ⟨t, _, rfl, ht, u, _, rfl, hu, rfl⟩ := hts
    obtain ⟨hku, rfl⟩ := shape_eq hu
    have hvalue : accept convert false container ⟨q, level, some id, none, .separator⟩ u
        (f.setValue id (some (.string ""))) = (.ok ⟨q, level, some id, none, .value⟩, _) :=
      accept_value_plain _ hku rfl rfl
    simp only [List.foldlM_cons, List.foldlM_nil, Build.bind_apply, hsep t (Prod.mk.inj ht).1,
      hvalue, Build.pure_apply]
  · rw [Token.valueShapes_typed hne hs] at hts
    simp only [List.map_eq_cons_iff, List.map_eq_nil_iff] at hts
    obtain ⟨t, _, rfl, ht, y, _, rfl, hy, t', _, rfl, ht', u, _, rfl, hu, rfl⟩ := hts
    obtain ⟨hky, rfl⟩ := shape_eq hy
    obtain ⟨hku, rfl⟩ := shape_eq hu
    have hpending : Place.pending ⟨q, level, some id, some y.text, .separator⟩ = some y.text := by
      simp [Place.pending, Option.filter, hne]
    simp only [List.foldlM_cons, List.foldlM_nil, Build.bind_apply, hsep t (Prod.mk.inj ht).1,
      accept_type _ hky, accept_separator _ (Prod.mk.inj ht').1, emptyValue, reduceCtorEq, if_false,
      accept_value_typed _ hku rfl hpending, hconv, Build.pure_apply]

theorem build_append {ts ts' : List Token} {p' : Place}
    (h : ts.foldlM (accept convert false container) p f = (.ok p', g)) :
    (ts ++ ts').foldlM (accept convert false container) p f =
      ts'.foldlM (accept convert false container) p' g := by
  rw [List.foldlM_append, Build.bind_apply, h]

theorem lineShapes_eq (level : Nat) (name : String) (value : Option (String × String)) :
    lineShapes level name value =
      ((if level = 0 then [] else [(.space, List.replicate (3 * level) ' ')]) ++
        [(.name, name.toList)]) ++ ((value.map fun v => valueShapes v.1 v.2).getD [] ++
          [(.lineBreak, Text.crlf)]) := by
  simp [lineShapes]

theorem build_bare_line {ts : List Token} {name : String} (hopen : Opens f container q level p)
    (hts : ts.map Token.shape = lineShapes level name none) :
    ts.foldlM (accept convert false container) p f =
      (.ok (.atEnd q level f.size), f.grow q name none) := by
  rw [lineShapes_eq] at hts
  obtain ⟨start, ending, rfl, hstart, hending⟩ := List.map_eq_append_iff.mp hts
  simp only [Option.map_none, Option.getD_none, List.nil_append,
    List.map_eq_singleton_iff] at hending
  obtain ⟨t, rfl, ht⟩ := hending
  rw [build_append (build_name hopen hstart)]
  simp only [List.foldlM_cons, List.foldlM_nil, Build.bind_apply,
    accept_lineBreak _ (Prod.mk.inj ht).1, Build.pure_apply]
  rfl

theorem build_value_line {ts : List Token} {name tag text : String} {v : Value}
    (hopen : Opens f container q level p)
    (hts : ts.map Token.shape = lineShapes level name (some (tag, text)))
    (hv : Converts convert ((f.grow q name none).setValue f.size (some (.string ""))) tag text v
      g) :
    ts.foldlM (accept convert false container) p f =
      (.ok (.atEnd q level f.size), g.setValue f.size (some v)) := by
  rw [lineShapes_eq] at hts
  obtain ⟨start, rest, rfl, hstart, hrest⟩ := List.map_eq_append_iff.mp hts
  obtain ⟨value, ending, rfl, hvalue, hending⟩ := List.map_eq_append_iff.mp hrest
  obtain ⟨t, rfl, ht⟩ := List.map_eq_singleton_iff.mp hending
  rw [build_append (build_name hopen hstart), build_append (build_value hvalue hv)]
  simp only [List.foldlM_cons, List.foldlM_nil, Build.bind_apply,
    accept_lineBreak _ (Prod.mk.inj ht).1, Build.pure_apply]
  rfl

/-! ## Groves -/

/-- The tokens of `gr` build a grove below the node that stands open, wherever that is. Its values
are those that `T` relates to the values of `gr`. -/
def Builds (r : Registry) (T : Value → Value → Prop) (gr : Grove) : Prop :=
  ∀ {convert : Convert} {f : Forest} {container q : NodeId} {level : Nat} {p : Place}
    {ts : List Token}, (∀ k < gr.need r, Serves r k convert) → f.WellFormed → q < f.size →
    Opens f container q level p → ts.map Token.shape = gr.shapes r level →
    ∃ p' g new gr', ts.foldlM (accept convert false container) p f = (.ok p', g) ∧
      Grown f g q new ∧ ShowsFrom g f.size new gr' ∧ Grove.Rel (Becomes T) gr gr' ∧
        ((gr = .nil ∧ p' = p ∧ g = f) ∨ Below g q level p')

variable {r : Registry} {T : Value → Value → Prop} {gr ch sib : Grove}

theorem builds_nil : Builds r T .nil := by
  intro convert f container q level p ts _ hf _ _ hts
  obtain rfl := List.map_eq_nil_iff.mp hts
  exact ⟨p, f, [], .nil, rfl, .refl hf q, .nil, .nil, .inl ⟨rfl, rfl, rfl⟩⟩

/-- The node that a line adds, before its children are read. -/
structure NewNode (f g : Forest) (q : NodeId) (name : String) (v : Option Value) : Prop
  extends Leaf f g q name where
  value : g.value f.size = v

theorem newNode_grow (hf : f.WellFormed) (hq : q < f.size) (name : String) :
    NewNode f (f.grow q name none) q name none :=
  { leaf_grow hf hq name none with
    value := by rw [value_grow, if_pos rfl] }

theorem newNode_setValue {name : String} (hl : Leaf f g q name) (hq : q < f.size)
    (v : Option Value) : NewNode f (g.setValue f.size v) q name v :=
  { hl.setValue v with
    value := by rw [value_setValue, if_pos ⟨rfl, hl.size_lt hq⟩] }

/-- Behind the line of a node its children are built, and then its siblings. -/
theorem build_rest {ts us : List Token} {name : String} {v : Option Value}
    (hch : Builds r T ch) (hsib : Builds r T sib)
    (hserve : ∀ k < max (ch.need r) (sib.need r), Serves r k convert) (hq : q < f.size)
    (htop : level = 0 → q = container) (hg : NewNode f g q name v)
    (hts : ts.map Token.shape = ch.shapes r (level + 1))
    (hus : us.map Token.shape = sib.shapes r level) :
    ∃ p' h new ch' sib',
      (ts ++ us).foldlM (accept convert false container) (.atEnd q level f.size) g =
        (.ok p', h) ∧ Grown f h q (f.size :: new) ∧ Below h q level p' ∧
      g.size ≤ h.size ∧ h.name f.size = name ∧ h.value f.size = v ∧
      ShowsFrom h f.size (h.children f.size) ch' ∧ ShowsFrom h f.size new sib' ∧
      Grove.Rel (Becomes T) ch ch' ∧ Grove.Rel (Becomes T) sib sib' ∧
      ∀ c, f.size < c → c < g.size → h.name c = g.name c ∧ h.value c = g.value c ∧
        ∀ low gr, f.size < low → ShowsFrom g low (g.children c) gr →
          ShowsFrom h low (h.children c) gr := by
  have hlt := hg.size_lt hq
  have hlast : (g.children q).getLast? = some f.size := by
    rw [hg.grown.children q hq, if_pos rfl, List.getLast?_append]
    rfl
  have hopens : Opens g container f.size (level + 1) (.atEnd q level f.size) :=
    opens_children rfl rfl hlast
  obtain ⟨p₁, h₁, below, ch', hrun₁, hgrown₁, hshow₁, hrel₁, hcase₁⟩ :=
    hch (fun k hk => hserve k (by omega)) hg.grown.wf hlt hopens hts
  have hpar₁ : h₁.parent f.size = some q := (hgrown₁.parent _ hlt).trans (hg.parent hq)
  have hbelow₁ : Below h₁ q level p₁ := by
    rcases hcase₁ with ⟨-, rfl, rfl⟩ | hbelow
    · exact ⟨rfl, 0, rfl, rfl⟩
    · exact hbelow.up hpar₁
  have hlt₁ : f.size < h₁.size := Nat.lt_of_lt_of_le hlt hgrown₁.size_le
  obtain ⟨p₂, h₂, new, sib', hrun₂, hgrown₂, hshow₂, hrel₂, hcase₂⟩ :=
    hsib (fun k hk => hserve k (by omega)) hgrown₁.wf (Nat.lt_trans hq hlt₁)
      (hbelow₁.opens htop) hus
  have hbelow₂ : Below h₂ q level p₂ := by
    rcases hcase₂ with ⟨-, rfl, rfl⟩ | hbelow
    · exact hbelow₁
    · exact hbelow
  have hchildren : h₂.children f.size = below := by
    rw [hgrown₂.children _ hlt₁, if_neg (Nat.ne_of_gt hq), hgrown₁.children _ hlt, if_pos rfl,
      hg.children]
    simp
  refine ⟨p₂, h₂, new, ch', sib', by rw [build_append hrun₁, hrun₂],
    (hg.grown.below hgrown₁ (Nat.le_refl _)).trans hgrown₂, hbelow₂,
    hgrown₁.size_le.trans hgrown₂.size_le, ?_, ?_, ?_, hshow₂.mono hlt₁.le, hrel₁, hrel₂,
    fun c hc hcg => ?_⟩
  · rw [hgrown₂.name _ hlt₁, hgrown₁.name _ hlt, hg.name]
  · rw [hgrown₂.value _ hlt₁, hgrown₁.value _ hlt, hg.value]
  · rw [hchildren]
    exact (hgrown₂.showsFrom (Nat.lt_trans hq hlt) hshow₁).mono hlt.le
  · have hcl := Nat.lt_of_lt_of_le hcg hgrown₁.size_le
    refine ⟨?_, ?_, fun low gr hlow hs => ?_⟩
    · rw [hgrown₂.name _ hcl, hgrown₁.name _ hcg]
    · rw [hgrown₂.value _ hcl, hgrown₁.value _ hcg]
    · rw [hgrown₂.children _ hcl, if_neg (Nat.ne_of_gt (Nat.lt_trans hq hc)),
        hgrown₁.children _ hcg, if_neg (Nat.ne_of_gt hc), List.append_nil, List.append_nil]
      exact hgrown₂.showsFrom (Nat.lt_trans hq hlow) (hgrown₁.showsFrom hlow hs)

/-- The line of a value that is read back makes a new node, and nothing but what stands in it
depends on the registry. -/
theorem build_line {ts : List Token} {name : String} {v : Option Value} (hr : Standard r)
    (hv : ∀ w ∈ v, Readable r T w)
    (hserve : ∀ w ∈ v, Serves r (pair r w).2.length convert) (hf : f.WellFormed) (hq : q < f.size)
    (hopen : Opens f container q level p)
    (hts : ts.map Token.shape = lineShapes level name (v.map (pair r))) :
    ∃ v' g, ts.foldlM (accept convert false container) p f = (.ok (.atEnd q level f.size), g) ∧
      NewNode f g q name v' ∧ Becomes T v v' ∧ ∀ c, v' ≠ some (.node c) := by
  have hnew := newNode_grow hf hq name
  cases v with
  | none => exact ⟨none, _, build_bare_line hopen hts, hnew, .none, by simp⟩
  | some v =>
    have hempty := hnew.setValue (some (.string ""))
    rcases hv v rfl with ⟨s, rfl⟩ | h
    · rw [Option.map_some, pair, hr.describe_string] at hts
      exact ⟨some (.string s), _, build_value_line hopen hts (.inl ⟨rfl, rfl, rfl⟩),
        newNode_setValue hempty hq _, .string s, by simp⟩
    · obtain ⟨n, hn, hconv⟩ := hserve v rfl (pair r v).1 (pair r v).2
      rw [Nat.min_self] at hn
      obtain ⟨v', g, hread, hgrown, heq, hT⟩ := h.reads n _ hempty.grown.wf hn
      rw [← hconv] at hread
      refine ⟨some v', _, build_value_line hopen hts
        (.inr ⟨h.tag_ne_string, h.tag_ne_empty, hread⟩), newNode_setValue (hempty.trans hq hgrown) hq _,
        .scalar heq hT, ?_⟩
      rintro c ⟨⟩
      exact h.scalar c (Value.equal_node heq)

theorem builds_plain {name : String} {v : Option Value} (hr : Standard r)
    (hv : ∀ w ∈ v, Readable r T w) (hch : Builds r T ch) (hsib : Builds r T sib) :
    Builds r T (.plain name v ch sib) := by
  intro convert f container q level p ts hserve hf hq hopen hts
  obtain ⟨line, rest, rfl, hline, hrest⟩ := List.map_eq_append_iff.mp hts
  obtain ⟨below, beside, rfl, hbelow, hbeside⟩ := List.map_eq_append_iff.mp hrest
  have hroom : ∀ w ∈ v, Serves r (pair r w).2.length convert := by
    rintro w ⟨⟩
    refine hserve _ ?_
    simp only [Grove.need, Option.map_some, Option.getD_some]
    omega
  obtain ⟨v', g, hrun, hnew, hbecomes, hnode⟩ := build_line hr hv hroom hf hq hopen hline
  obtain ⟨p', h, new, ch', sib', hrun', hgrown, hbelow', hle, hname, hvalue, hshow, hshow', hrel,
      hrel', -⟩ :=
    build_rest hch hsib (fun k hk => hserve k (by simp only [Grove.need]; omega)) hq hopen.top hnew
      hbelow hbeside
  refine ⟨p', h, f.size :: new, .plain name v' ch' sib', ?_, hgrown, ?_,
    .plain hbecomes hrel hrel', .inr hbelow'⟩
  · rw [build_append hrun, hrun']
  · rw [← hname, ← hvalue]
    exact .plain (Nat.le_refl _) (Nat.lt_of_lt_of_le (hnew.size_lt hq) hle) (by simpa [hvalue] using hnode)
      hshow hshow'

/-- A text that builds a grove is read as one, below any node that has room at the top. -/
theorem Builds.parseInto (hb : Builds r T gr) (hplain : gr.All fun v => PlainTag (pair r v).1)
    (hserve : ∀ k < gr.need r, Serves r k convert) (hf : f.WellFormed) (hc : container < f.size) :
    ∃ g new gr',
      parseInto convert false (String.ofList (gr.text r 0)) container f = (.ok (), g) ∧
        Grown f g container new ∧ ShowsFrom g f.size new gr' ∧ Grove.Rel (Becomes T) gr gr' := by
  have hscans := Grove.scans_text hplain 0 scans_nil
  rw [List.append_nil, List.append_nil] at hscans
  obtain ⟨ts, hts, hshapes⟩ := tokenize_of_scans hscans
  have hopens : Opens f container container 0 (.start container) :=
    ⟨rfl, fun _ => rfl, fun h => absurd rfl h⟩
  obtain ⟨p', g, new, gr', hrun, hgrown, hshow, hrel, -⟩ := hb hserve hf hc hopens hshapes
  refine ⟨g, new, gr', ?_, hgrown, hshow, hrel⟩
  rw [parseInto_apply, hts]
  simp only [buildTokens, hrun, Except.map]

/-- From `f` to `g` a container was added, with the nodes that show a grove below it. -/
structure Boxed (f g : Forest) (gr : Grove) : Prop where
  grown : ∀ q, Grown f g q []
  lt : f.size < g.size
  name : g.name f.size = ""
  value : g.value f.size = none
  shows : ShowsFrom g f.size (g.children f.size) gr

theorem Builds.convert_node (hr : Standard r) (hb : Builds r T gr)
    (hplain : gr.All fun v => PlainTag (pair r v).1) (hserve : Serves r (gr.need r) convert)
    (hf : f.WellFormed) :
    ∃ g gr', convert "node" (String.ofList (gr.text r 0)) f = (.ok (.node f.size), g) ∧
      Boxed f g gr' ∧ Grove.Rel (Becomes T) gr gr' := by
  obtain ⟨n, hn, hconv⟩ := hserve "node" (String.ofList (gr.text r 0))
  have hneed := gr.need_le_length (r := r) 0
  rw [String.length_ofList, Nat.min_eq_left hneed] at hn
  have hinserve : ∀ k < gr.need r, Serves r k (r.convertWithin n) := fun k hk =>
    serves_convertWithin (by omega)
  have hlt : f.size < (f.create "" none).2.size := by simp
  obtain ⟨g, new, gr', hparse, hgrown, hshow, hrel⟩ :=
    hb.parseInto hplain hinserve (hf.create "" none) hlt
  refine ⟨g, gr', ?_, ⟨fun q => (Grown.create hf q "" none).below hgrown (Nat.le_refl _),
    Nat.lt_of_lt_of_le hlt hgrown.size_le, ?_, ?_, ?_⟩, hrel⟩
  · rw [hconv, Registry.convertWithin, hr.readsNode]
    simp only [Registry.nodeReader, parseDetached, Build.bind_apply, Build.step_apply, create_fst,
      hparse, Build.pure_apply]
  · rw [hgrown.name _ hlt, name_create, if_pos rfl]
  · rw [hgrown.value _ hlt, value_create, if_pos rfl]
  · rw [hgrown.children _ hlt, if_pos rfl, children_create_size, List.nil_append]
    exact hshow.mono hlt.le

theorem builds_nested {name : String} {inner : Grove} (hr : Standard r)
    (hplain : inner.All fun v => PlainTag (pair r v).1) (hin : Builds r T inner)
    (hch : Builds r T ch) (hsib : Builds r T sib) : Builds r T (.nested name inner ch sib) := by
  intro convert f container q level p ts hserve hf hq hopen hts
  obtain ⟨line, rest, rfl, hline, hrest⟩ := List.map_eq_append_iff.mp hts
  obtain ⟨below, beside, rfl, hbelow, hbeside⟩ := List.map_eq_append_iff.mp hrest
  have hnew := (leaf_grow hf hq name none).setValue (some (.string ""))
  generalize hf₁ : (f.grow q name none).setValue f.size (some (.string "")) = f₁ at hnew
  -- The literal is read into a container of its own, behind the node of the line.
  obtain ⟨g, inner', hread, hbox, hrelin⟩ := hin.convert_node hr hplain
    (hserve (inner.need r) (by simp only [Grove.need]; omega)) hnew.grown.wf
  have hvalue : Converts convert ((f.grow q name none).setValue f.size (some (.string ""))) "node"
      (String.ofList (inner.text r 0)) (.node f₁.size) g := by
    rw [hf₁]
    exact .inr ⟨by decide, by decide, hread⟩
  have hrun := build_value_line hopen hline hvalue
  have hline' : NewNode f (g.setValue f.size (some (.node f₁.size))) q name
      (some (.node f₁.size)) := newNode_setValue (hnew.trans hq (hbox.grown q)) hq _
  obtain ⟨p', h, new', ch', sib', hrun', hgrown', hbelow', hle, hname, hvalue', hshow, hshow',
      hrel, hrel', hkeep⟩ :=
    build_rest hch hsib (fun k hk => hserve k (by simp only [Grove.need]; omega)) hq hopen.top
      hline' hbelow hbeside
  have hlt := hnew.size_lt hq
  obtain ⟨hcname, hcvalue, hcshow⟩ := hkeep f₁.size hlt (by simpa using hbox.lt)
  have hnever : f₁.size ≠ f.size := Nat.ne_of_gt hlt
  refine ⟨p', h, f.size :: new', .nested name inner' ch' sib', ?_, hgrown', ?_,
    .nested hrelin hrel hrel', .inr hbelow'⟩
  · rw [build_append hrun, hrun']
  · rw [← hname]
    rw [size_setValue] at hle
    refine .nested (Nat.le_refl _) (Nat.lt_of_lt_of_le (Nat.lt_trans hlt hbox.lt) hle) hvalue'
      hlt.le (Nat.lt_of_lt_of_le hbox.lt hle) ?_ ?_ ?_ hshow hshow'
    · rw [hcname, name_setValue, hbox.name]
    · rw [hcvalue, value_setValue, if_neg fun h => hnever h.1, hbox.value]
    · refine (hcshow _ _ hlt ?_).mono hlt.le
      rw [children_setValue]
      exact showsFrom_setValue hlt hbox.shows _

/-- Every grove whose values are read back is built from its tokens. -/
theorem builds_of_readable (hr : Standard r) (h : gr.All (Readable r T)) : Builds r T gr := by
  induction gr with
  | nil => exact builds_nil
  | plain name v ch sib ihch ihsib => exact builds_plain hr h.1 (ihch h.2.1) (ihsib h.2.2)
  | nested name inner ch sib ihin ihch ihsib =>
    exact builds_nested hr (h.1.mono fun _ hv => hv.plainTag hr) (ihin h.1) (ihch h.2.1)
      (ihsib h.2.2)

end Outline.Document

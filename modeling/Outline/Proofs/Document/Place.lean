import Outline.Proofs.Document.Tidy
import Outline.Proofs.Token.Faults

/-!
# The place of the builder

While a document is built, the node that new nodes are added to lies below the container, as many
levels as the level says, and the way down to it leads along last children. So going up never
leaves the document. Literals may be read in between: a nested document grows in the same forest,
but apart from the tree that is being built.
-/

namespace Outline

/-- The error is not that an indentation led out of the document. -/
def Error.Inside (e : Error) : Prop :=
  ∀ position context, e ≠ .syntaxError .leavesDocument position context

theorem Error.Lexical.inside {e : Error} (h : e.Lexical) : e.Inside :=
  fun position context he => h _ position context he

namespace Document

open Forest Token Build

variable {base f g : Forest} {container id q : NodeId} {n : Nat} {p p' : Place} {t : Token}
  {convert : Convert} {comments : Bool} {ts : List Token} {lines : List Line}

/-- On every level down to the place, the node that is reached from the container along last
children is the one that is reached from the place by going up. -/
def Seated (f : Forest) (container : NodeId) (p : Place) : Prop :=
  ∀ k n, k + n = p.level → ∃ x, f.descend k container = some x ∧ ascend f n p.parent = some x

theorem seated_of_descend (hf : f.WellFormed)
    (h : f.descend p.level container = some p.parent) : Seated f container p := by
  intro k n hkn
  rw [← hkn] at h
  obtain ⟨x, hx⟩ := exists_descend_of_le (Nat.le_add_right k n) h
  exact ⟨x, hx, (hf.ascend_of_descend h).trans hx⟩

/-! ## Literals that leave the old nodes alone -/

/-- Reading a literal adds nodes and leaves the old ones as they are, and where it fails, it is not
for an indentation that leads out of the document. -/
structure Sparing (convert : Convert) : Prop where
  grown : ∀ (tag raw : String) {f : Forest}, f.WellFormed → Grown f (convert tag raw f).2 root []
  inside : ∀ (tag raw : String) {f : Forest}, f.WellFormed →
    FailsWith Error.Inside (convert tag raw f).1

/-- A reader that is sparing, given that the literals inside its own are read in such a way. -/
def SparingReader (read : Registry.Reader) : Prop :=
  ∀ context : Registry.ReadContext, Sparing context.convert → Sparing fun _ raw => read context raw

theorem descend_congr (hf : f.WellFormed) (hid : id < f.size)
    (hch : ∀ i < f.size, g.children i = f.children i) : g.descend n id = f.descend n id := by
  induction n generalizing id with
  | zero => rfl
  | succ n ih =>
    rw [descend, descend, hch id hid]
    cases hlast : (f.children id).getLast? with
    | none => rfl
    | some last => exact ih (hf.child_lt (List.mem_of_getLast? hlast))

theorem le_of_descend (hbase : ∀ c q, base.parent c = some q → q < base.size)
    (hg : Grown base f root []) (hfresh : base.size ≤ container)
    (hd : f.descend n container = some q) : base.size ≤ q := by
  induction n generalizing q with
  | zero =>
    obtain rfl := Option.some.inj hd
    exact hfresh
  | succ n ih =>
    rw [descend_succ, Option.bind_eq_some_iff] at hd
    obtain ⟨q', hq', hlast⟩ := hd
    have hparent := hg.wf.mem_children.mp (List.mem_of_getLast? hlast)
    by_contra hlt
    rw [hg.parent q (Nat.not_le.mp hlt)] at hparent
    exact Nat.not_lt.mpr (ih hq') (hbase q q' hparent)

/-! ## Every step keeps the place -/

/-- Building below a new container has come from `base` to `f`, and to the place `p`. -/
structure Standing (base f : Forest) (container : NodeId) (p : Place) : Prop where
  linked : ∀ c q, base.parent c = some q → q < base.size
  grown : Grown base f root []
  fresh : base.size ≤ container
  lt : container < f.size
  place : f.descend p.level container = some p.parent
  current : ∀ id ∈ p.current, base.size ≤ id

namespace Standing

theorem wf (h : Standing base f container p) : f.WellFormed := h.grown.wf

theorem parent_lt (h : Standing base f container p) : p.parent < f.size :=
  h.wf.descend_lt h.lt h.place

theorem seated (h : Standing base f container p) : Seated f container p :=
  seated_of_descend h.wf h.place

theorem start (hbase : ∀ c q, base.parent c = some q → q < base.size)
    (hg : Grown base f root []) (hfresh : base.size ≤ container) (hlt : container < f.size) :
    Standing base f container (.start container) :=
  ⟨hbase, hg, hfresh, hlt, rfl, fun _ h => by cases h⟩

/-- The parent and its level are all there is to a place, but for the current node. -/
theorem of_eq (h : Standing base f container p) (hparent : p'.parent = p.parent)
    (hlevel : p'.level = p.level) (hcurrent : ∀ id ∈ p'.current, base.size ≤ id) :
    Standing base f container p' :=
  ⟨h.linked, h.grown, h.fresh, h.lt, by rw [hparent, hlevel, h.place], hcurrent⟩

theorem reset (h : Standing base f container p) :
    Standing base f container (p.reset container) := by
  rw [Place.reset]
  split
  · exact ⟨h.linked, h.grown, h.fresh, h.lt, rfl, h.current⟩
  · exact h

theorem grow (h : Standing base f container p) (name : String) (v : Option Value) :
    Standing base (f.grow p.parent name v) container p where
  linked := h.linked
  grown := h.grown.below (.grow h.wf h.parent_lt name v)
    (le_of_descend h.linked h.grown h.fresh h.place)
  fresh := h.fresh
  lt := by simpa using Nat.lt_succ_of_lt h.lt
  place := (descend_hang_of_le h.wf (.grow h.wf h.parent_lt name v) h.lt h.place
    (Nat.le_refl _)).trans h.place
  current := h.current

theorem setValue (h : Standing base f container p) (hid : base.size ≤ id) (v : Option Value) :
    Standing base (f.setValue id v) container p where
  linked := h.linked
  grown := h.grown.setValue hid v
  fresh := h.fresh
  lt := by simpa using h.lt
  place := (descend_congr h.wf h.lt fun i _ => children_setValue f id i v).trans h.place
  current := h.current

theorem read (h : Standing base f container p) (hg : Grown f g root []) :
    Standing base g container p where
  linked := h.linked
  grown := h.grown.trans hg
  fresh := h.fresh
  lt := Nat.lt_of_lt_of_le h.lt hg.size_le
  place := (descend_congr h.wf h.lt fun i hi => by simpa using hg.children i hi).trans h.place
  current := h.current

/-- An indentation leads to a node on the way or to the last child, or it is refused for another
reason than that it leads out of the document. -/
theorem changeLevel (h : Standing base f container p) (t : Token) :
    (∃ q, changeLevel f t p = .ok q ∧ Standing base f container q ∧ q.current = p.current) ∨
      ∃ e, changeLevel f t p = .error e ∧ e.Inside := by
  have hplace := h.place
  simp only [Document.changeLevel]
  generalize t.text.length / 3 = level
  by_cases hfar : p.level + 1 < level
  · exact .inr ⟨_, if_pos hfar, by rintro position context ⟨⟩⟩
  rw [if_neg hfar]
  by_cases hdown : level = p.level + 1
  · rw [if_pos hdown]
    cases hlast : (f.children p.parent).getLast? with
    | none => exact .inr ⟨_, rfl, by rintro position context ⟨⟩⟩
    | some last =>
      refine .inl ⟨_, rfl, ⟨h.linked, h.grown, h.fresh, h.lt, ?_, h.current⟩, rfl⟩
      rw [hdown, descend_succ, hplace, Option.bind_some, hlast]
  · -- The level is above the place, where the way down has passed.
    obtain ⟨k, hk⟩ : ∃ k, p.level = level + k := ⟨p.level - level, by omega⟩
    rw [hk] at hplace
    obtain ⟨x, hx⟩ := exists_descend_of_le (Nat.le_add_right level k) hplace
    rw [if_neg hdown, hk, Nat.add_sub_cancel_left, h.wf.ascend_of_descend hplace, hx]
    exact .inl ⟨_, rfl, ⟨h.linked, h.grown, h.fresh, h.lt, hx, h.current⟩, rfl⟩

/-- The place stands in what a token comes to, also where it is refused. Behind a name there is
always a current node. -/
def Lands (base : Forest) (container : NodeId) (p : Place) (t : Token) :
    Except Error Place × Forest → Prop
  | (.ok q, g) => Standing base g container q ∧
      (t.kind = .name ∨ p.current.isSome = true → q.current.isSome = true)
  | (.error e, g) => Standing base g container p ∧ e.Inside

theorem lands_comment (h : Standing base f container p) (ht : t.kind.isComment = true) :
    Lands base container p t (accept convert comments container p t f) := by
  have hname : t.kind ≠ .name := fun hk => by simp [hk, Kind.isComment] at ht
  have hcurrent : (p.reset container).current = p.current := by
    rw [Place.reset]
    split <;> rfl
  rw [accept_comment f ht]
  cases comments with
  | true =>
    have hg := h.reset.grow commentName (some (.string t.text))
    exact ⟨hg.of_eq rfl rfl hg.current, fun hs => hcurrent ▸ hs.resolve_left hname⟩
  | false => exact ⟨h.of_eq rfl rfl h.current, fun hs => hs.resolve_left hname⟩

theorem lands_value (h : Standing base f container p) (hconvert : Sparing convert)
    (ht : t.kind = .value) :
    Lands base container p t (accept convert comments container p t f) := by
  have hname : t.kind ≠ .name := fun hk => by simp [hk] at ht
  have hkeep : ∀ {g : Forest}, Standing base g container p → ∀ tag previous,
      Standing base g container { p with tag, previous } :=
    fun hg _ _ => hg.of_eq rfl rfl hg.current
  cases hc : p.current with
  | none =>
    rw [accept_value_none f ht hc]
    exact ⟨hkeep h p.tag _, fun hs => hs.resolve_left hname⟩
  | some id =>
    have hid : base.size ≤ id := h.current id hc
    cases hp : p.pending with
    | none =>
      rw [accept_value_plain f ht hc hp]
      exact ⟨hkeep (h.setValue hid _) _ _, fun hs => hs.resolve_left hname⟩
    | some tag =>
      have hread := h.read (hconvert.grown tag t.text h.wf)
      have hinside := hconvert.inside tag t.text h.wf
      rw [accept_value_typed f ht hc hp]
      rcases hv : convert tag t.text f with ⟨e | v, g⟩ <;> rw [hv] at hread hinside
      · exact ⟨hread, hinside e rfl⟩
      · exact ⟨hkeep (hread.setValue hid _) _ _, fun hs => hs.resolve_left hname⟩

theorem lands_accept (h : Standing base f container p) (hconvert : Sparing convert)
    (comments : Bool) (t : Token) :
    Lands base container p t (accept convert comments container p t f) := by
  have hother : t.kind ≠ .name → t.kind = .name ∨ p.current.isSome = true →
      p.current.isSome = true := fun hk hs => hs.resolve_left hk
  obtain ⟨k, ht⟩ : ∃ k, t.kind = k := ⟨_, rfl⟩
  cases k with
  | name =>
    rw [accept_name f ht]
    split
    · exact ⟨h, by rintro position context ⟨⟩⟩
    · refine ⟨(h.reset.grow t.text none).of_eq rfl rfl ?_, fun _ => rfl⟩
      rintro id ⟨⟩
      exact h.grown.size_le
  | lineComment => exact h.lands_comment (by rw [ht]; rfl)
  | blockComment => exact h.lands_comment (by rw [ht]; rfl)
  | separator =>
    have hg : Standing base (emptyValue f p) container p := by
      unfold emptyValue
      split
      · rename_i id hc
        split
        · exact h.setValue (h.current id hc) _
        · exact h
      · exact h
    rw [accept_separator f ht]
    exact ⟨hg.of_eq rfl rfl hg.current, hother (by simp [ht])⟩
  | type =>
    rw [accept_type f ht]
    exact ⟨h.of_eq rfl rfl h.current, hother (by simp [ht])⟩
  | value => exact h.lands_value hconvert ht
  | space =>
    rw [accept_space f ht]
    rcases h.changeLevel t with ⟨q, hq, hstands, hcurrent⟩ | ⟨e, he, hinside⟩
    · rw [hq]
      exact ⟨hstands.of_eq rfl rfl hstands.current, hcurrent ▸ hother (by simp [ht])⟩
    · rw [he]
      exact ⟨h, hinside⟩
  | lineBreak =>
    rw [accept_lineBreak f ht]
    exact ⟨h.of_eq rfl rfl h.current, hother (by simp [ht])⟩

def LandsAll (base : Forest) (container : NodeId) (p : Place) (ts : List Token) :
    Except Error Place × Forest → Prop
  | (.ok q, g) => Standing base g container q ∧
      ((∃ t ∈ ts, t.kind = .name) ∨ p.current.isSome = true → q.current.isSome = true)
  | (.error e, g) => Grown base g root [] ∧ e.Inside

theorem landsAll_foldlM (h : Standing base f container p) (hconvert : Sparing convert)
    (comments : Bool) (ts : List Token) :
    LandsAll base container p ts (ts.foldlM (accept convert comments container) p f) := by
  induction ts generalizing p f with
  | nil => exact ⟨h, fun hs => hs.resolve_left (by simp)⟩
  | cons t ts ih =>
    have hone := h.lands_accept hconvert comments t
    rw [List.foldlM_cons, bind_apply]
    rcases hx : accept convert comments container p t f with ⟨e | q, g⟩ <;> rw [hx] at hone
    · exact ⟨hone.1.grown, hone.2⟩
    · have hrest := ih hone.1
      dsimp only
      rcases hy : ts.foldlM (accept convert comments container) q g with ⟨e | r, k⟩ <;>
        rw [hy] at hrest
      · exact hrest
      · refine ⟨hrest.1, fun hs => hrest.2 ?_⟩
        rcases hs with ⟨n, hn, hname⟩ | hsome
        · rcases List.mem_cons.mp hn with rfl | hn
          · exact .inr (hone.2 (.inl hname))
          · exact .inl ⟨n, hn, hname⟩
        · exact .inr (hone.2 (.inr hsome))

end Standing

/-! ## Documents in between -/

/-- A document keeps to the nodes of its container, and never leaves them. -/
theorem parseInto_sparing (hconvert : Sparing convert) (comments : Bool) (source : String)
    (h : Standing base f container (.start container)) :
    Grown base (parseInto convert comments source container f).2 root [] ∧
      FailsWith Error.Inside (parseInto convert comments source container f).1 := by
  rw [parseInto_apply]
  cases ht : tokenize source with
  | error e => exact ⟨h.grown, .error (lexical_tokenize source e ht).inside⟩
  | ok ts =>
    have hrun := h.landsAll_foldlM hconvert comments ts
    simp only [buildTokens]
    rcases hx : ts.foldlM (accept convert comments container) (.start container) f
      with ⟨e | q, g⟩ <;> rw [hx] at hrun
    · exact ⟨hrun.1, .error hrun.2⟩
    · exact ⟨hrun.1.grown, .ok _⟩

theorem sparingReader_node : SparingReader Registry.nodeReader := by
  intro context hconvert
  have hread : ∀ (raw : String) {f : Forest}, f.WellFormed →
      Grown f (Registry.nodeReader context raw f).2 root [] ∧
        FailsWith Error.Inside (Registry.nodeReader context raw f).1 := by
    intro raw f hf
    have hstart : Standing f (f.create "" none).2 f.size (.start f.size) :=
      .start (fun _ _ => hf.parent_lt) (.create hf root "" none) (Nat.le_refl _) (by simp)
    obtain ⟨hgrown, hinside⟩ := parseInto_sparing hconvert false raw hstart
    rw [nodeReader_apply]
    exact ⟨hgrown, hinside.map _⟩
  exact ⟨fun _ raw _ hf => (hread raw hf).1, fun _ raw _ hf => (hread raw hf).2⟩

theorem sparing_ofExcept {x : String → String → Except Error Value}
    (hx : ∀ tag raw, FailsWith Error.Inside (x tag raw)) :
    Sparing fun tag raw => Build.ofExcept (x tag raw) :=
  ⟨fun _ _ _ hf => .refl hf root, fun tag raw _ _ => hx tag raw⟩

theorem sparingReader_scalar (kind : Value.Kind) : SparingReader (Registry.scalarReader kind) :=
  fun _ _ => sparing_ofExcept fun _ raw e he => (Registry.lexical_readScalar kind raw e he).inside

theorem sparing_convert {r : Registry} (hr : ∀ entry ∈ r.readers, SparingReader entry.2) :
    Sparing r.convert := by
  have hpoint : ∀ convert, Sparing convert ↔ ∀ tag raw, Sparing fun _ _ => convert tag raw :=
    fun convert => ⟨fun h tag raw => ⟨fun _ _ => h.grown tag raw, fun _ _ => h.inside tag raw⟩,
      fun h => ⟨fun tag raw => (h tag raw).grown tag raw,
        fun tag raw => (h tag raw).inside tag raw⟩⟩
  refine Registry.convert_of_readers hpoint (fun tag => ?_) hr
  exact sparing_ofExcept (x := fun _ _ => .error (.unknownType tag)) fun _ _ =>
    .error (by rintro position context ⟨⟩)

theorem sparingReader_builtin : ∀ entry ∈ Registry.builtin.readers, SparingReader entry.2 :=
  Registry.builtin_readers sparingReader_scalar sparingReader_node

theorem sparingReader_registerType {r : Registry}
    (hr : ∀ entry ∈ r.readers, SparingReader entry.2) (type : Value.TypeKey) (tag : String)
    (write : Value.Custom → String) (read : String → Except String Value.Custom) :
    ∀ entry ∈ (r.registerType type tag write read).readers, SparingReader entry.2 := by
  refine Registry.registerType_readers type tag write read hr fun _ _ =>
    sparing_ofExcept fun _ raw => ?_
  rw [Registry.stating]
  split
  · exact .ok _
  · exact .error (Error.lexical_invalidValue _ _ _).inside

/-! ## The order of tokens -/

/-- Tokens that are about a node. -/
def ofNode (t : Token) : Bool := t.kind = .name ∨ t.kind = .separator ∨ t.kind = .value

theorem name_of_find? (hts : Spells ts lines) : ∀ t ∈ ts.find? ofNode, t.kind = .name := by
  have hindent : ∀ {a level}, Indent a level → a.find? ofNode = none := by
    intro a level ha
    cases ha with
    | none => rfl
    | some hk => simp [ofNode, hk]
  have hwords : ∀ {b name literal}, Words b name literal → ∀ rest,
      ∀ t ∈ (b ++ rest).find? ofNode, t.kind = .name := by
    intro b name literal hb rest t ht
    cases hb with
    | bare hn | plain hn | typed hn =>
      rw [List.cons_append, List.find?_cons_of_pos (by simp [ofNode, hn])] at ht
      cases ht
      exact hn
  induction hts with
  | nil => simp
  | last ha hb =>
    rw [List.find?_append, hindent ha, Option.none_or]
    simpa using hwords hb []
  | entry ha hb =>
    rw [List.append_assoc, List.find?_append, hindent ha, Option.none_or]
    exact hwords hb _
  | @comment a ts c e level lines ha hc _ _ he _ ih =>
    have hcomment : ofNode c = false := by
      cases hk : c.kind <;> simp [hk, Kind.isComment, ofNode] at hc ⊢
    have hbreak : ofNode e = false := by simp [ofNode, he]
    rw [List.find?_append, hindent ha, Option.none_or, List.find?_cons_of_neg (by simp [hcomment]),
      List.find?_cons_of_neg (by simp [hbreak])]
    exact ih

theorem exists_name_before (hts : Spells ts lines) {pre post : List Token}
    (h : ts = pre ++ t :: post) (ht : t.kind = .separator ∨ t.kind = .value) :
    ∃ n ∈ pre, n.kind = .name := by
  have hfirst := name_of_find? hts
  rw [h, List.find?_append] at hfirst
  cases hpre : pre.find? ofNode with
  | some n => exact ⟨n, List.mem_of_find?_eq_some hpre, hfirst n (by simp [hpre])⟩
  | none =>
    have hnode : ofNode t = true := by simpa [ofNode] using .inr ht
    rw [hpre, Option.none_or, List.find?_cons_of_pos hnode] at hfirst
    rcases ht with ht | ht <;> simp [hfirst t rfl] at ht

/-! ## Whole documents -/

theorem grown_nil (hf : f.WellFormed) : Grown ⟨#[]⟩ f root [] where
  wf := hf
  size_le := Nat.zero_le _
  name i hi := absurd hi (Nat.not_lt_zero i)
  value i hi := absurd hi (Nat.not_lt_zero i)
  parent i hi := absurd hi (Nat.not_lt_zero i)
  children i hi := absurd hi (Nat.not_lt_zero i)

/-- Wherever a document is read into a forest: before and after each token the place is found below
the container, no separator and no literal comes without a current node, and no indentation leads
out of the document. -/
theorem parseInto_seated {r : Registry} (hr : ∀ entry ∈ r.readers, SparingReader entry.2)
    (comments : Bool) (source : String) (hf : f.WellFormed) (hc : container < f.size) :
    (∀ ts, tokenize source = .ok ts → ∀ pre t post, ts = pre ++ t :: post → ∀ p g,
      pre.foldlM (accept r.convert comments container) (.start container) f = (.ok p, g) →
        Seated g container p ∧ (t.kind = .separator ∨ t.kind = .value → p.current ≠ none) ∧
        match accept r.convert comments container p t g with
        | (.ok q, h) => Seated h container q
        | (.error _, h) => Seated h container p) ∧
    ∀ position context, (parseInto r.convert comments source container f).1 ≠
      .error (.syntaxError .leavesDocument position context) := by
  have hconvert := sparing_convert hr
  have hstart : Standing ⟨#[]⟩ f container (.start container) := by
    refine .start (fun c q h => ?_) (grown_nil hf) (Nat.zero_le _) hc
    rw [parent_of_size_le (Nat.zero_le c)] at h
    cases h
  constructor
  · intro ts hts pre t post hsplit p g hpre
    have hrun := hstart.landsAll_foldlM hconvert comments pre
    rw [hpre] at hrun
    have hone := hrun.1.lands_accept hconvert comments t
    refine ⟨hrun.1.seated, fun ht => ?_, ?_⟩
    · obtain ⟨lines, hlines⟩ := spells_of_tokenize hts
      exact Option.isSome_iff_ne_none.mp (hrun.2 (.inl (exists_name_before hlines hsplit ht)))
    · rcases hx : accept r.convert comments container p t g with ⟨e | q, h⟩ <;> rw [hx] at hone
      · exact hone.1.seated
      · exact hone.1.seated
  · intro position context herror
    exact (parseInto_sparing hconvert comments source hstart).2 _ herror position context rfl

/-- In front of the literal of a node two levels down, behind a nested document and a kept comment,
below a node that has a child already. -/
theorem parseInto_seated_nested :
    let convert := Registry.builtin.convert
    let f := (((empty.create "a" none).2.create "b" none).2.add root 1).add 1 2
    let source := "x:node:\"y\\r\\n   z:5\"\r\n   // c\r\n   d\r\n      e:int:7\r\nu"
    (∃ pre t post p g, tokenize source = .ok (pre ++ t :: post) ∧ t.kind = .value ∧
      pre.foldlM (accept convert true 1) (.start 1) f = (.ok p, g) ∧ p.level = 2 ∧
      Seated g 1 p ∧ p.current ≠ none) ∧
    ∀ position context, (parseInto convert true source 1 f).1 ≠
      .error (.syntaxError .leavesDocument position context) := by
  intro convert f source
  have hf : f.WellFormed :=
    (((Edited.create empty "a" none).trans (.create _ "b" none)).trans
      (.add (by decide) (by decide))).trans (.add (by decide) (by decide)) |>.wellFormed
  obtain ⟨hplace, hinside⟩ := parseInto_seated sparingReader_builtin true source hf
    (show 1 < f.size by decide)
  have hrun : ((tokenize source).toOption.bind fun ts => ts[17]?.bind fun t =>
      ((ts.take 17).foldlM (accept convert true 1) (.start 1) f).1.toOption.map fun p =>
        (t.kind, p.level)) = some (.value, 2) := by decide +kernel
  clear_value source f
  refine ⟨?_, hinside⟩
  obtain ⟨ts, hts, hrun⟩ := Option.bind_eq_some_iff.mp hrun
  obtain ⟨t, ht, hrun⟩ := Option.bind_eq_some_iff.mp hrun
  obtain ⟨p, hp, hfinal⟩ := Option.map_eq_some_iff.mp hrun
  obtain ⟨hkind, hlevel⟩ := Prod.mk.inj hfinal
  obtain ⟨hlt, rfl⟩ := List.getElem?_eq_some_iff.mp ht
  have hsplit : ts = ts.take 17 ++ ts[17] :: ts.drop 18 := by
    rw [List.getElem_cons_drop, List.take_append_drop]
  have hok : ∀ {ε α : Type} {x : Except ε α} {a : α}, x.toOption = some a → x = .ok a := by
    rintro ε α (_ | _) a ⟨⟩
    rfl
  have hpre : (ts.take 17).foldlM (accept convert true 1) (.start 1) f = (.ok p, _) :=
    Prod.ext (hok hp) rfl
  obtain ⟨hseated, hcurrent, -⟩ := hplace ts (hok hts) _ _ _ hsplit p _ hpre
  exact ⟨_, _, _, p, _, hsplit ▸ hok hts, hkind, hpre, hlevel, hseated, hcurrent (.inr hkind)⟩

end Document
end Outline

import Outline.Proofs.Document.Uniform
import Outline.Proofs.Token.Comment

/-!
# Kept comments that are written

A document without typed literals is written line by line as it was read, and what is written is
read line by line again. Entries come back as they were. A comment is lost in two ways: one line
with a carriage return in it is refused, and asterisks at the start of a block are taken off.
-/

namespace Outline

namespace Token.Line

open Text Document

def value : Line → Option Value
  | .entry _ _ literal => literal.map fun l => .string l.2
  | .comment _ text => some (.string text)

/-- What the node of a line is written as. -/
def text : Line → List Char
  | .entry level name literal =>
    lineText (fun v => ("string", v.display)) false level name
      (literal.map fun l => .string l.2) ++ crlf
  | .comment level text => commentText level text.toList ++ crlf

def reread : Line → Line
  | .entry level name literal => .entry level name literal
  | .comment level text => .comment level (String.ofList (Text.reread text.toList))

/-- A line without a typed literal that is not taken for a comment unless it is one. -/
inductive Simple : Line → Prop
  | entry {level : Nat} {name : String} {literal : Option (String × String)}
      (hname : name ≠ commentName) (hlit : ∀ l ∈ literal, l.1 = "") :
      Simple (.entry level name literal)
  | comment {level : Nat} {text : String} : Simple (.comment level text)

theorem Simple.tag_eq {level : Nat} {name : String} {literal : Option (String × String)}
    (h : (Line.entry level name literal).Simple) : ∀ l ∈ literal, l.1 = "" := by
  cases h
  assumption

theorem Simple.reread {l : Line} (h : l.Simple) : l.reread.Simple := by
  cases h with
  | entry hname hlit => exact .entry hname hlit
  | comment => exact .comment

end Token.Line

namespace Document

open Forest Token Build

variable {f g : Forest} {r : Registry} {source : String} {ts : List Token} {lines : List Line}
  {comments : Bool} {container : NodeId}

/-! ## The lines of a text -/

def Line.comment? : Line → Option String
  | .entry _ _ _ => none
  | .comment _ text => some text

theorem comments_of_spells (h : Spells ts lines) :
    (ts.filter (·.isComment)).map (·.text) = lines.filterMap Line.comment? := by
  have hnone : ∀ {a : List Token}, (∀ t ∈ a, t.isComment = false) →
      a.filter (·.isComment) = [] := fun ha =>
    List.filter_eq_nil_iff.mpr fun t ht => by simp [ha t ht]
  induction h with
  | nil => rfl
  | last ha hb =>
    rw [hnone (not_isComment_entry ha hb)]
    rfl
  | entry ha hb he _ ih =>
    rw [List.filter_append, hnone (not_isComment_entry ha hb), List.nil_append,
      List.filter_cons_of_neg (by simp [Token.isComment, he, Kind.isComment]), ih]
    rfl
  | @comment a ts c e level lines ha hc _ _ he _ ih =>
    have hcomment : c.isComment = true := hc
    rw [List.filter_append, hnone ha.not_isComment, List.nil_append,
      List.filter_cons_of_pos hcomment,
      List.filter_cons_of_neg (by simp [Token.isComment, he, Kind.isComment]), List.map_cons, ih]
    rfl

theorem forall_comment_iff (h : Spells ts lines) (P : String → Prop) :
    (∀ t ∈ ts, t.isComment = true → P t.text) ↔
      ∀ level text, Line.comment level text ∈ lines → P text := by
  have hmem : ∀ text, (∃ t ∈ ts, t.isComment = true ∧ t.text = text) ↔
      ∃ level, Line.comment level text ∈ lines := by
    intro text
    have hiff := congrArg (text ∈ ·) (comments_of_spells h)
    simp only [List.mem_map, List.mem_filter, List.mem_filterMap, eq_iff_iff, and_assoc] at hiff
    rw [hiff]
    constructor
    · rintro ⟨l, hl, htext⟩
      cases l with
      | entry => cases htext
      | comment level s =>
        cases htext
        exact ⟨level, hl⟩
    · rintro ⟨level, hl⟩
      exact ⟨_, hl, rfl⟩
  constructor
  · intro hall level text hl
    obtain ⟨t, ht, hcomment, rfl⟩ := (hmem text).mpr ⟨level, hl⟩
    exact hall t ht hcomment
  · intro hall t ht hcomment
    obtain ⟨level, hl⟩ := (hmem t.text).mp ⟨t, ht, hcomment, rfl⟩
    exact hall level t.text hl

theorem simple_of_spells (h : Spells ts lines) (hnames : ∀ e ∈ entries ts, e.name ≠ commentName)
    (hlit : ∀ l ∈ literalsFrom none ts, l.1 = "") : ∀ l ∈ lines, l.Simple := by
  rw [entries_of_spells h] at hnames
  rw [literals_of_spells h] at hlit
  intro l hl
  cases l with
  | comment level text => exact .comment
  | entry level name literal =>
    exact .entry (hnames ⟨level, name⟩ (List.mem_filterMap.mpr ⟨_, hl, rfl⟩)) fun x hx =>
      hlit x (List.mem_filterMap.mpr ⟨_, hl, hx⟩)

/-! ## Texts without typed literals -/

theorem tag_of_words {b : List Token} {name : String} {literal : Option (String × String)}
    (hb : Words b name literal) (hlit : ∀ l ∈ literal, l.1 = "") :
    ∀ t ∈ b, t.kind = .type → t.text = "" := by
  intro t ht hk
  cases hb with
  | bare => simp_all
  | plain =>
    simp only [List.mem_cons, List.not_mem_nil, or_false] at ht
    rcases ht with rfl | rfl | rfl <;> simp_all
  | typed =>
    simp only [List.mem_cons, List.not_mem_nil, or_false] at ht
    rcases ht with rfl | rfl | rfl | rfl | rfl <;> simp_all

theorem tag_of_spells (h : Spells ts lines) (hs : ∀ l ∈ lines, l.Simple) :
    ∀ t ∈ ts, t.kind = .type → t.text = "" := by
  have hindent : ∀ {a : List Token} {level : Nat}, Indent a level → ∀ t ∈ a, t.kind ≠ .type := by
    intro a level ha t ht hk
    cases ha with
    | none => cases ht
    | some hspace => simp_all
  induction h with
  | nil => simp
  | @last a b level name literal ha hb =>
    have hlit : ∀ l ∈ literal, l.1 = "" := (hs _ List.mem_cons_self).tag_eq
    intro t ht hk
    rcases List.mem_append.mp ht with ht | ht
    · exact absurd hk (hindent ha t ht)
    · exact tag_of_words hb hlit t ht hk
  | @entry a b ts e level name literal lines ha hb he _ ih =>
    have hlit : ∀ l ∈ literal, l.1 = "" := (hs _ List.mem_cons_self).tag_eq
    intro t ht hk
    simp only [List.mem_append, List.mem_cons] at ht
    rcases ht with (ht | ht) | rfl | ht
    · exact absurd hk (hindent ha t ht)
    · exact tag_of_words hb hlit t ht hk
    · simp [he] at hk
    · exact ih (fun l hl => hs l (by simp [hl])) t ht hk
  | comment ha hc _ _ he _ ih =>
    intro t ht hk
    simp only [List.mem_append, List.mem_cons] at ht
    rcases ht with ht | rfl | rfl | ht
    · exact absurd hk (hindent ha t ht)
    · simp [hk, Kind.isComment] at hc
    · simp [he] at hk
    · exact ih (fun l hl => hs l (by simp [hl])) t ht hk

/-- A converter is not asked as long as no tag waits. -/
theorem accept_congr (convert convert' : Convert) (comments : Bool) (container : NodeId)
    (f : Forest) {p : Place} {t : Token} (hp : p.pending = none)
    (ht : t.kind = .type → t.text = "") :
    accept convert comments container p t f = accept convert' comments container p t f ∧
      ∀ q g, accept convert comments container p t f = (.ok q, g) → q.pending = none := by
  cases hk : t.kind with
  | name =>
    rw [accept_name f hk, accept_name f hk]
    refine ⟨rfl, fun q g h => ?_⟩
    split at h <;> cases h
    rfl
  | lineComment | blockComment =>
    have hcomment : t.kind.isComment = true := by rw [hk]; rfl
    rw [accept_comment f hcomment, accept_comment f hcomment]
    refine ⟨rfl, fun q g h => ?_⟩
    split at h <;> cases h
    · rw [← hp, Place.reset]
      split <;> rfl
    · exact hp
  | separator =>
    rw [accept_separator f hk, accept_separator f hk]
    refine ⟨rfl, fun q g h => ?_⟩
    cases h
    exact hp
  | type =>
    rw [accept_type f hk, accept_type f hk]
    refine ⟨rfl, fun q g h => ?_⟩
    cases h
    rw [ht hk]
    rfl
  | value =>
    cases hc : p.current with
    | none =>
      rw [accept_value_none f hk hc, accept_value_none f hk hc]
      refine ⟨rfl, fun q g h => ?_⟩
      cases h
      exact hp
    | some id =>
      rw [accept_value_plain f hk hc hp, accept_value_plain f hk hc hp]
      refine ⟨rfl, fun q g h => ?_⟩
      cases h
      rfl
  | space =>
    rw [accept_space f hk, accept_space f hk]
    refine ⟨rfl, fun q g h => ?_⟩
    cases hl : changeLevel f t p with
    | error e =>
      rw [hl] at h
      cases h
    | ok p' =>
      rw [hl] at h
      cases h
      rw [← hp, Place.pending, Place.pending, (changeLevel_current hl).2]
  | lineBreak =>
    rw [accept_lineBreak f hk, accept_lineBreak f hk]
    refine ⟨rfl, fun q g h => ?_⟩
    cases h
    exact hp

theorem foldlM_accept_congr (convert convert' : Convert) {p : Place}
    (hp : p.pending = none) (hts : ∀ t ∈ ts, t.kind = .type → t.text = "") :
    ts.foldlM (accept convert comments container) p f =
      ts.foldlM (accept convert' comments container) p f := by
  induction ts generalizing p f with
  | nil => rfl
  | cons t ts ih =>
    obtain ⟨heq, hpending⟩ := accept_congr convert convert' comments container f hp
      (hts t (by simp))
    rw [List.foldlM_cons, List.foldlM_cons, bind_apply, bind_apply, ← heq]
    rcases hx : accept convert comments container p t f with ⟨_ | q, g⟩
    · rfl
    · exact ih (hpending q g hx) fun t ht => hts t (by simp [ht])

theorem parse_congr (convert convert' : Convert) (ht : tokenize source = .ok ts)
    (hts : ∀ t ∈ ts, t.kind = .type → t.text = "") :
    parse convert comments source = parse convert' comments source := by
  have hrun : buildTokens convert comments root ts Forest.empty =
      buildTokens convert' comments root ts Forest.empty :=
    foldlM_accept_congr convert convert' rfl hts
  rw [parse, parse, parseInto_apply, parseInto_apply, ht]
  dsimp only
  rw [hrun]

/-! ## Printing -/

theorem lineText_line
    (hr : r.writers.lookup (.builtin .string) = some ("string", Registry.scalarWriter))
    (children : NodeId → String) {l : Line} (hl : l.Simple) :
    lineText (r.describeWith children) true l.level l.name l.value ++ Text.crlf = l.text := by
  have htext := describe_string_of_lookup hr children
  cases hl with
  | @entry level name literal hname hlit =>
    have hnot : (true && name == commentName) = false := by simpa using hname
    have hplain : ∀ s : String, (Value.string s).display = s := fun s => rfl
    cases literal <;>
      simp [lineText, Line.text, Line.value, Line.name, Line.level, hnot, htext, hplain]
  | comment => simp [lineText, Line.text, Line.value, Line.name, Line.level, htext]

/-- Nodes in pre-order, on the levels of lines and with their names and values, are written as the
lines. -/
theorem flatMap_printTree
    (hr : r.writers.lookup (.builtin .string) = some ("string", Registry.scalarWriter))
    {level depth : Nat} {ids : List NodeId} {new : List (Line × NodeId)}
    (h : Lists f level ids (new.map fun x => (x.1.level, x.2)))
    (hnew : ∀ x ∈ new, f.name x.2 = x.1.name ∧ f.value x.2 = x.1.value ∧ x.1.Simple)
    (hd : new.length ≤ depth) :
    ids.flatMap (printTree r f depth true level) = (new.map (·.1)).flatMap Line.text := by
  generalize hxs : (new.map fun x => (x.1.level, x.2)) = xs at h
  induction h generalizing new depth with
  | nil =>
    obtain rfl := List.map_eq_nil_iff.mp hxs
    rfl
  | @cons level id ids below rest _ _ ihbelow ihrest =>
    obtain ⟨x, tail, rfl, hx, htail⟩ := List.map_eq_cons_iff.mp hxs
    obtain ⟨new₁, new₂, rfl, rfl, rfl⟩ := List.map_eq_append_iff.mp htail
    obtain ⟨rfl, rfl⟩ := Prod.mk.inj hx
    simp only [List.length_cons, List.length_append] at hd
    -- The nodes that are listed are counted against the depth, so one level down there is room too.
    obtain ⟨depth, rfl⟩ : ∃ d, depth = d + 1 := ⟨depth - 1, by omega⟩
    obtain ⟨hname, hvalue, hsimple⟩ := hnew x (by simp)
    have hbelow : (f.children x.2).flatMap (printTree r f depth true (x.1.level + 1)) = _ :=
      ihbelow (fun y hy => hnew y (by simp [hy])) (by omega) rfl
    have hrest : ids.flatMap (printTree r f (depth + 1) true x.1.level) = _ :=
      ihrest (fun y hy => hnew y (by simp [hy])) (by omega) rfl
    rw [List.flatMap_cons, printTree, hname, hvalue, lineText_line hr _ hsimple, hbelow, hrest]
    simp

theorem lineContent_simple (content : String → String → Content) {l : Line} (hl : l.Simple) :
    lineContent content l = .plain l.value := by
  cases hl with
  | comment => rfl
  | @entry level name literal _ hlit =>
    cases literal with
    | none => rfl
    | some x =>
      have htag : x.1.isEmpty = true := by simp [hlit x rfl]
      rw [lineContent, if_pos htag]
      rfl

/-- A document whose comments are kept is written line by line, as it was read. -/
theorem print_of_parse
    (hr : r.writers.lookup (.builtin .string) = some ("string", Registry.scalarWriter))
    (ht : tokenize source = .ok ts) (hts : Spells ts lines) (hs : ∀ l ∈ lines, l.Simple)
    (hf : parse r.convert true source = .ok f) :
    print r f true = String.ofList (lines.flatMap Line.text) := by
  -- No literal has a tag, so a converter that refuses everything reads the same document.
  obtain ⟨content, hu⟩ := uniform_throw .unknownType
  rw [parse_congr _ _ ht (tag_of_spells hts hs)] at hf
  obtain ⟨new, hnew, -⟩ := planted_of_parse hu.toTidy ht hts hf
  have hempty : Forest.empty.children root = [] := by decide
  have hlt : root < Forest.empty.size := by decide
  have hlines := hnew.map_fst_of_kept
  have hwf := (hnew.grownWithin wellFormed_empty hlt).wf
  have hbears := hnew.bears hu wellFormed_empty hlt
    (GrownWithin.refl hwf).toAgreesOutside (Nat.zero_le _)
  have hholds : ∀ x ∈ new, f.name x.2 = x.1.name ∧ f.value x.2 = x.1.value ∧ x.1.Simple := by
    intro x hx
    have hsimple : x.1.Simple := hs x.1 (hlines ▸ List.mem_map_of_mem hx)
    have hvalue := hbears x hx
    rw [lineContent_simple content hsimple] at hvalue
    exact ⟨(hnew.placed wellFormed_empty hlt x hx).name, hvalue.1, hsimple⟩
  have hdepth : new.length ≤ f.size := by
    rw [← List.length_map (f := (·.2))]
    refine length_le_of_nodup (hnew.nodup wellFormed_empty hlt) fun i hi => ?_
    obtain ⟨x, hx, rfl⟩ := List.mem_map.mp hi
    exact (hnew.placed wellFormed_empty hlt x hx).lt
  rw [print, printNodes,
    flatMap_printTree hr (hnew.lists wellFormed_empty hlt hempty) hholds hdepth, hlines]

/-! ## Reading -/

variable (hkept : ∀ level text, Line.comment level text ∈ lines → Text.Kept text.toList)
  (hs : ∀ l ∈ lines, l.Simple)

include hkept hs

theorem scansAs_text {l : Line} (hl : l ∈ lines)
    (hbroken : ∀ level text, l = .comment level text → ¬ Text.Broken text.toList) :
    ScansAs l.text l.reread := by
  cases l with
  | entry level name literal => exact scansAs_entry (fun s => rfl) (hs _ hl).tag_eq level name
  | comment level text => exact scansAs_comment (hkept level text hl) (hbroken level text rfl) level

theorem tokenize_text
    (hbroken : ∀ level text, Line.comment level text ∈ lines → ¬ Text.Broken text.toList) :
    ∃ ts, tokenize (String.ofList (lines.flatMap Line.text)) = .ok ts ∧
      Spells ts (lines.map Line.reread) := by
  have hscans : ∀ x ∈ lines.map fun l => (l.text, l.reread), ScansAs x.1 x.2 := by
    intro x hx
    obtain ⟨l, hl, rfl⟩ := List.mem_map.mp hx
    exact scansAs_text hkept hs hl fun level text h => hbroken level text (h ▸ hl)
  obtain ⟨ls, hls, hspells⟩ := scan_flatMap hscans
  rw [List.flatMap_map] at hls
  have hread := hspells (lines.flatMap Line.text)
  rw [List.map_map] at hread
  refine ⟨_, ?_, hread⟩
  rw [tokenize, String.toList_ofList, tokenizeChars, hls]

theorem tokenize_text_error
    (hbroken : ∃ level text, Line.comment level text ∈ lines ∧ Text.Broken text.toList) :
    ∃ e, tokenize (String.ofList (lines.flatMap Line.text)) = .error e := by
  have heach : ∀ x ∈ lines.map fun l => (l.text, l.reread), ScansAs x.1 x.2 ∨ Refused x.1 := by
    intro x hx
    obtain ⟨l, hl, rfl⟩ := List.mem_map.mp hx
    by_cases hb : ∃ level text, l = .comment level text ∧ Text.Broken text.toList
    · obtain ⟨level, text, rfl, hb⟩ := hb
      exact .inr (refused_comment (hkept level text hl) hb level)
    · exact .inl (scansAs_text hkept hs hl fun level text h hbad => hb ⟨level, text, h, hbad⟩)
  obtain ⟨level, text, hl, hb⟩ := hbroken
  obtain ⟨e, he⟩ := scan_flatMap_error heach
    ⟨_, List.mem_map_of_mem hl, refused_comment (hkept level text hl) hb level⟩
  rw [List.flatMap_map] at he
  refine ⟨haltError (lines.flatMap Line.text) e, ?_⟩
  rw [tokenize, String.toList_ofList, tokenizeChars, he]

omit hs

theorem text_reread :
    (lines.map Line.reread).flatMap Line.text = lines.flatMap Line.text ↔
      ∀ level text, Line.comment level text ∈ lines → ¬ Text.Starred text.toList := by
  have hsame : ∀ l ∈ lines, (∀ level text, l = .comment level text → ¬ Text.Starred text.toList) →
      l.reread.text = l.text := by
    intro l hl hstar
    cases l with
    | entry => rfl
    | comment level text =>
      rw [Line.reread, Line.text, Line.text, String.toList_ofList,
        (hkept level text hl).commentText_reread (hstar level text rfl)]
  have hless : ∀ level text, Line.comment level text ∈ lines → Text.Starred text.toList →
      Text.ink (Line.comment level text).reread.text < Text.ink (Line.comment level text).text := by
    intro level text hl hstar
    rw [Line.reread, Line.text, Line.text, String.toList_ofList, Text.ink_append, Text.ink_append]
    exact Nat.add_lt_add_right ((hkept level text hl).ink_commentText_reread_lt hstar) _
  rw [List.flatMap_map]
  constructor
  · -- No line gains ink and a starred one loses some, so the texts as a whole differ.
    intro heq level text hl hstar
    have hle : ∀ l ∈ lines, Text.ink l.reread.text ≤ Text.ink l.text := by
      intro l hl
      by_cases hstar : ∃ level text, l = .comment level text ∧ Text.Starred text.toList
      · obtain ⟨level, text, rfl, hstar⟩ := hstar
        exact Nat.le_of_lt (hless level text hl hstar)
      · rw [hsame l hl fun level text h hs => hstar ⟨level, text, h, hs⟩]
    have hsum := List.sum_lt_sum _ _ hle ⟨_, hl, hless level text hl hstar⟩
    have hink := congrArg Text.ink heq
    rw [Text.ink, Text.ink, List.countP_flatMap, List.countP_flatMap] at hink
    exact Nat.ne_of_lt hsum hink
  · intro hstar
    refine List.flatMap_congr fun l hl => hsame l hl fun level text h => ?_
    exact hstar level text (h ▸ hl)

omit hkept

/-! ## Both ways -/

theorem foldlM_step_reread (rd : String → String → Bool) (s : Sketch) :
    (lines.map Line.reread).foldlM (Sketch.step comments rd) s =
      lines.foldlM (Sketch.step comments rd) s := by
  induction lines generalizing s with
  | nil => rfl
  | cons l lines ih =>
    have hstep : s.step comments rd l.reread = s.step comments rd l := by cases l <;> rfl
    rw [List.map_cons, List.foldlM_cons, List.foldlM_cons, hstep]
    cases s.step comments rd l with
    | none => rfl
    | some s' => exact ih s'

/-- A document without typed literals, in which no name stands for a comment, is printed with its
comments. The text is accepted again if and only if no comment of one line has a carriage return
in it, and then it is printed as it stands if and only if no comment of several lines begins with
an asterisk. -/
theorem print_comments_again
    (hr : r.writers.lookup (.builtin .string) = some ("string", Registry.scalarWriter))
    (ht : tokenize source = .ok ts) (hnames : ∀ e ∈ entries ts, e.name ≠ commentName)
    (hlit : ∀ l ∈ literals source, l.1 = "") (hf : parse r.convert true source = .ok f) :
    ((∃ g, parse r.convert true (print r f true) = .ok g) ↔
        ∀ t ∈ ts, t.isComment = true → ¬ Text.Broken t.text.toList) ∧
      ∀ g, parse r.convert true (print r f true) = .ok g →
        (print r g true = print r f true ↔
          ∀ t ∈ ts, t.isComment = true → ¬ Text.Starred t.text.toList) := by
  obtain ⟨lines, hts⟩ := spells_of_tokenize ht
  have hraw : ∀ l ∈ literalsFrom none ts, l.1 = "" := by
    rw [literals, ht] at hlit
    exact hlit
  have hs := simple_of_spells hts hnames hraw
  have hkept := (forall_comment_iff hts fun s => Text.Kept s.toList).mp (kept_of_tokenize ht)
  rw [print_of_parse hr ht hts hs hf, forall_comment_iff hts fun s => ¬ Text.Broken s.toList,
    forall_comment_iff hts fun s => ¬ Text.Starred s.toList]
  by_cases hbroken : ∀ level text, Line.comment level text ∈ lines → ¬ Text.Broken text.toList
  · obtain ⟨ts', ht', hts'⟩ := tokenize_text hkept hs hbroken
    have hs' : ∀ l ∈ lines.map Line.reread, l.Simple := by
      intro l' hl'
      obtain ⟨l, hl, rfl⟩ := List.mem_map.mp hl'
      exact (hs l hl).reread
    -- Both texts are accepted where their sketches go through, and the sketches are the same.
    have htidy : Tidy fun tag _ => throw (.unknownType tag) := tidy_throw .unknownType
    refine ⟨iff_of_true ?_ hbroken, fun g hg => ?_⟩
    · rw [parse_congr _ (fun tag _ => throw (.unknownType tag)) ht (tag_of_spells hts hs)] at hf
      simp only [parse_congr r.convert (fun tag _ => throw (.unknownType tag)) ht'
        (tag_of_spells hts' hs')]
      rw [htidy.exists_parse_iff ht' hts', foldlM_step_reread, ← htidy.exists_parse_iff ht hts]
      exact ⟨f, hf⟩
    · rw [print_of_parse hr ht' hts' hs' hg, String.ofList_inj]
      exact text_reread hkept
  · have hexists : ∃ level text, Line.comment level text ∈ lines ∧ Text.Broken text.toList := by
      simpa only [not_forall, not_not, exists_prop] using hbroken
    obtain ⟨e, he⟩ := tokenize_text_error hkept hs hexists
    have hnone : ∀ g, parse r.convert true (String.ofList (lines.flatMap Line.text)) ≠ .ok g := by
      intro g hg
      rw [parse, parseInto_apply, he] at hg
      cases hg
    refine ⟨iff_of_false ?_ hbroken, fun g hg => absurd hg (hnone g)⟩
    rintro ⟨g, hg⟩
    exact hnone g hg

/-- Comments of both kinds are stable. A carriage return inside a block of one line is put into a
line comment, which is refused; an asterisk behind a tab is kept at first and lost the next time. -/
theorem print_comments_again_lost :
    let convert := Registry.builtin.convert
    let shown := fun f => print Registry.builtin f true
    (∃ f g, parse convert true "a:b\n   // c\n/* d\n   * e */" = .ok f ∧
      parse convert true (shown f) = .ok g ∧ shown g = shown f) ∧
    (∃ f, parse convert true "/* a\rb */" = .ok f ∧ ¬ ∃ g, parse convert true (shown f) = .ok g) ∧
    (∃ f g, parse convert true "/*\t* foo\n bar */" = .ok f ∧
      parse convert true (shown f) = .ok g ∧ shown g ≠ shown f) := by
  intro convert shown
  have hrun : ∀ (source : String) (accepted stable : Bool),
      (tokenize source).toOption.any (fun ts => (∀ e ∈ entries ts, e.name ≠ commentName) ∧
        decide (∀ t ∈ ts, t.isComment = true → ¬ Text.Broken t.text.toList) = accepted ∧
        decide (∀ t ∈ ts, t.isComment = true → ¬ Text.Starred t.text.toList) = stable) = true →
      (∀ l ∈ literals source, l.1 = "") → (parse convert true source).isOk = true →
      ∃ f, parse convert true source = .ok f ∧
        ((∃ g, parse convert true (shown f) = .ok g) ↔ accepted = true) ∧
        ∀ g, parse convert true (shown f) = .ok g → (shown g = shown f ↔ stable = true) := by
    intro source accepted stable htokens hlit hparse
    cases ht : tokenize source with
    | error e =>
      rw [ht] at htokens
      cases htokens
    | ok ts =>
      rw [ht] at htokens
      obtain ⟨hnames, rfl, rfl⟩ := of_decide_eq_true htokens
      cases hf : parse convert true source with
      | error e =>
        rw [hf] at hparse
        cases hparse
      | ok f =>
        obtain ⟨haccept, hprint⟩ :=
          print_comments_again (r := Registry.builtin) rfl ht hnames hlit hf
        exact ⟨f, rfl, by rw [decide_eq_true_iff]; exact haccept,
          fun g hg => by rw [decide_eq_true_iff]; exact hprint g hg⟩
  refine ⟨?_, ?_, ?_⟩
  · obtain ⟨f, hf, haccept, hprint⟩ := hrun "a:b\n   // c\n/* d\n   * e */" true true
      (by decide +kernel) (by decide +kernel) (by decide +kernel)
    obtain ⟨g, hg⟩ := haccept.mpr rfl
    exact ⟨f, g, hf, hg, (hprint g hg).mpr rfl⟩
  · obtain ⟨f, hf, haccept, -⟩ := hrun "/* a\rb */" false true
      (by decide +kernel) (by decide +kernel) (by decide +kernel)
    exact ⟨f, hf, fun h => Bool.false_ne_true (haccept.mp h)⟩
  · obtain ⟨f, hf, haccept, hprint⟩ := hrun "/*\t* foo\n bar */" true false
      (by decide +kernel) (by decide +kernel) (by decide +kernel)
    obtain ⟨g, hg⟩ := haccept.mpr rfl
    exact ⟨f, g, hf, hg, fun h => Bool.false_ne_true ((hprint g hg).mp h)⟩

end Document
end Outline

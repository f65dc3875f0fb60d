import Outline.Proofs.Document.Accepted
import Outline.Proofs.Document.Tidy

/-!
# The tree that indentation describes

Each name of a text makes a node. A text without comments is accepted exactly if its first line
is not indented and no line is indented by more than one level more than the line before, and
then the nodes follow each other in pre-order, each on the level of its line. Only a reader that
keeps comments is stricter: it takes a node with their name for a comment.
-/

namespace Outline.Document

open Forest Token Build

variable {comments : Bool} {s : Sketch}

/-! ## Names and literals of token lists -/

/-- The names among tokens with their levels, where `level` is that of an indentation right
before. -/
def entriesFrom (level : Nat) : List Token → List Row
  | [] => []
  | t :: ts =>
    match t.kind with
    | .space => entriesFrom (t.text.length / 3) ts
    | .name => ⟨level, t.text⟩ :: entriesFrom 0 ts
    | _ => entriesFrom 0 ts

def entries (ts : List Token) : List Row := entriesFrom 0 ts

/-- The node that a line makes, unless it is a comment. -/
def Line.row? : Line → Option Row
  | .entry level name _ => some ⟨level, name⟩
  | .comment _ _ => none

def Line.literal? : Line → Option (String × String)
  | .entry _ _ literal => literal
  | .comment _ _ => none

theorem entriesFrom_indent {a : List Token} {level : Nat} (ha : Indent a level) (ts : List Token) :
    entriesFrom 0 (a ++ ts) = entriesFrom level ts := by
  cases ha with
  | none => rfl
  | some hk _ ht =>
    simp only [List.singleton_append, entriesFrom, hk, Indent.text_length ht]

theorem entriesFrom_words {b : List Token} {name : String} {literal : Option (String × String)}
    (hb : Words b name literal) (level : Nat) (ts : List Token) :
    entriesFrom level (b ++ ts) = ⟨level, name⟩ :: entriesFrom 0 ts := by
  cases hb with
  | bare hn => simp [entriesFrom, hn]
  | plain hn hs hv => simp [entriesFrom, hn, hs, hv]
  | typed hn hs ht hs' hv => simp [entriesFrom, hn, hs, ht, hs', hv]

theorem entries_of_spells {ts : List Token} {lines : List Line} (h : Spells ts lines) :
    entries ts = lines.filterMap Line.row? := by
  unfold entries
  induction h with
  | nil => rfl
  | @last a b level name literal ha hb =>
    have hwords := entriesFrom_words hb level []
    rw [List.append_nil] at hwords
    rw [entriesFrom_indent ha, hwords]
    rfl
  | @entry a b ts e level name literal lines ha hb he _ ih =>
    have hbreak : entriesFrom 0 (e :: ts) = entriesFrom 0 ts := by simp [entriesFrom, he]
    rw [List.append_assoc, entriesFrom_indent ha, entriesFrom_words hb, hbreak, ih]
    rfl
  | @comment a ts c e level lines ha hc _ _ he _ ih =>
    have hskip : entriesFrom level (c :: e :: ts) = entriesFrom 0 ts := by
      cases hk : c.kind <;> simp [hk, Kind.isComment] at hc <;> simp [entriesFrom, hk, he]
    rw [entriesFrom_indent ha, hskip, ih]
    rfl

theorem literalsFrom_words {b : List Token} {name : String} {literal : Option (String × String)}
    (hb : Words b name literal) (ts : List Token) :
    literalsFrom none (b ++ ts) = literal.toList ++ literalsFrom none ts := by
  cases hb with
  | bare hn => simp [literalsFrom, tagBehind, hn]
  | plain hn hs hv => simp [literalsFrom, tagBehind, hn, hs, hv]
  | typed hn hs ht hs' hv => simp [literalsFrom, tagBehind, hn, hs, ht, hs', hv]

theorem literalsFrom_indent {a : List Token} {level : Nat} (ha : Indent a level)
    (ts : List Token) : literalsFrom none (a ++ ts) = literalsFrom none ts := by
  cases ha with
  | none => rfl
  | some hk => simp [literalsFrom, tagBehind, hk]

theorem literals_of_spells {ts : List Token} {lines : List Line} (h : Spells ts lines) :
    literalsFrom none ts = lines.filterMap Line.literal? := by
  induction h with
  | nil => rfl
  | @last a b level name literal ha hb =>
    have hwords := literalsFrom_words hb []
    rw [List.append_nil] at hwords
    rw [literalsFrom_indent ha, hwords]
    cases literal <;> rfl
  | @entry a b ts e level name literal lines ha hb he _ ih =>
    have hbreak : literalsFrom none (e :: ts) = literalsFrom none ts := by
      simp [literalsFrom, tagBehind, he]
    rw [List.append_assoc, literalsFrom_indent ha, literalsFrom_words hb, hbreak, ih]
    cases literal <;> rfl
  | @comment a ts c e level lines ha hc _ _ he _ ih =>
    have hskip : literalsFrom none (c :: e :: ts) = literalsFrom none ts := by
      cases hk : c.kind <;> simp [hk, Kind.isComment] at hc <;>
        simp [literalsFrom, tagBehind, hk, he]
    rw [literalsFrom_indent ha, hskip, ih]
    rfl

/-! ## Entries one behind the other -/

/-- A line may follow another one: it is at most one level deeper. If comments are kept, the
name of comments takes no nodes below it. -/
def Follows (comments : Bool) (a b : Row) : Prop :=
  b.level ≤ a.level + 1 ∧ (comments = true → b.level = a.level + 1 → a.name ≠ commentName)

instance (a b : Row) : Decidable (Follows comments a b) := inferInstanceAs (Decidable (_ ∧ _))

/-- The last entry is at the end of the way down, and no comment is above it. -/
structure EndsIn (comments : Bool) (s : Sketch) (last : Row) : Prop where
  level : s.level = last.level
  length : s.spine.length = last.level + 1
  name : s.spine[last.level]? = some last.name
  above : ∀ j < last.level, comments = true → s.spine[j]? ≠ some commentName

theorem endsIn_add {level : Nat} (hlen : level ≤ s.spine.length)
    (habove : ∀ j < level, comments = true → s.spine[j]? ≠ some commentName) (name : String) :
    EndsIn comments (s.add level name) ⟨level, name⟩ where
  level := rfl
  length := by simp [Sketch.add, hlen]
  name := by simp [Sketch.add, hlen]
  above j hj hc := by
    have hlt : j < (s.spine.take level).length := by
      rw [List.length_take_of_le hlen]
      exact hj
    rw [Sketch.add, List.getElem?_append_left hlt, List.getElem?_take_of_lt hj]
    exact habove j hj hc

/-- Behind an entry, being refused by a comment is a matter of that entry alone. -/
theorem EndsIn.belowComment_iff {last : Row} (h : EndsIn comments s last) {level : Nat}
    (hle : level ≤ last.level + 1) :
    s.belowComment comments level = true ↔
      comments = true ∧ level = last.level + 1 ∧ last.name = commentName := by
  simp only [Sketch.belowComment, Bool.and_eq_true, bne_iff_ne, beq_iff_eq, and_assoc]
  refine and_congr_right fun hc => ?_
  constructor
  · rintro ⟨hne, hname⟩
    have hlevel : level = last.level + 1 := by
      by_contra hlt
      exact h.above (level - 1) (by omega) hc hname
    rw [hlevel, Nat.add_sub_cancel, h.name] at hname
    exact ⟨hlevel, Option.some.inj hname⟩
  · rintro ⟨rfl, hname⟩
    rw [Nat.add_sub_cancel, h.name, hname]
    exact ⟨Nat.succ_ne_zero _, rfl⟩

theorem EndsIn.step_eq {last : Row} (h : EndsIn comments s last) (row : Row)
    (literal : Option (String × String)) :
    s.step comments (fun _ _ => true) (.entry row.level row.name literal) =
      if Follows comments last row then some (s.add row.level row.name) else none := by
  rw [Sketch.step]
  refine if_congr ?_ rfl rfl
  rw [Sketch.Reaches, h.level, h.length, and_self, Follows]
  constructor
  · rintro ⟨hle, hbelow, -⟩
    refine ⟨hle, fun hc hlevel hname => ?_⟩
    rw [(h.belowComment_iff hle).mpr ⟨hc, hlevel, hname⟩] at hbelow
    cases hbelow
  · rintro ⟨hle, hopen⟩
    refine ⟨hle, ?_, by simp⟩
    rw [← Bool.not_eq_true, h.belowComment_iff hle]
    rintro ⟨hc, hlevel, hname⟩
    exact hopen hc hlevel hname

theorem EndsIn.next {last row : Row} (h : EndsIn comments s last)
    (hf : Follows comments last row) : EndsIn comments (s.add row.level row.name) row := by
  refine endsIn_add (by rw [h.length]; exact hf.1) (fun j hj hc => ?_) row.name
  rcases Nat.lt_or_ge j last.level with hlt | hge
  · exact h.above j hlt hc
  · have hlevel := hf.1
    obtain rfl : j = last.level := by omega
    rw [h.name]
    exact fun hname => hf.2 hc (by omega) (Option.some.inj hname)

theorem eq_entry {l : Line} (h : (Line.row? l).isSome = true) :
    ∃ (row : Row) (literal : Option (String × String)), l = .entry row.level row.name literal := by
  cases l with
  | comment level text => cases h
  | entry level name literal => exact ⟨⟨level, name⟩, literal, rfl⟩

/-- Behind an entry, a sketch goes through as long as each line follows the one before. -/
theorem EndsIn.foldlM {last : Row} (h : EndsIn comments s last) {lines : List Line}
    (hp : ∀ l ∈ lines, (Line.row? l).isSome = true) :
    ((lines.foldlM (Sketch.step comments fun _ _ => true) s).isSome = true ↔
        (last :: lines.filterMap Line.row?).IsChain (Follows comments)) ∧
      ∀ s', lines.foldlM (Sketch.step comments fun _ _ => true) s = some s' →
        s'.rows = s.rows ++ lines.filterMap Line.row? := by
  induction lines generalizing s last with
  | nil =>
    refine ⟨by simp, fun s' hs' => ?_⟩
    obtain rfl := Option.some.inj hs'
    simp
  | cons l lines ih =>
    rw [List.forall_mem_cons] at hp
    obtain ⟨row, literal, rfl⟩ := eq_entry hp.1
    have hrow : Line.row? (.entry row.level row.name literal) = some row := rfl
    rw [List.foldlM_cons, h.step_eq row literal, List.filterMap_cons_some hrow,
      List.isChain_cons_cons]
    by_cases hf : Follows comments last row
    · obtain ⟨hsome, hrows⟩ := ih (h.next hf) hp.2
      rw [if_pos hf]
      refine ⟨hsome.trans (by simp [hf]), fun s' hs' => ?_⟩
      rw [hrows s' hs', Sketch.add, List.append_assoc, List.singleton_append]
    · rw [if_neg hf]
      refine ⟨by simp [hf], fun s' hs' => ?_⟩
      cases hs'

theorem foldlM_start (comments : Bool) {lines : List Line}
    (hp : ∀ l ∈ lines, (Line.row? l).isSome = true) :
    ((lines.foldlM (Sketch.step comments fun _ _ => true) .start).isSome = true ↔
        (∀ row ∈ (lines.filterMap Line.row?).head?, row.level = 0) ∧
          (lines.filterMap Line.row?).IsChain (Follows comments)) ∧
      ∀ s, lines.foldlM (Sketch.step comments fun _ _ => true) .start = some s →
        s.rows = lines.filterMap Line.row? := by
  cases lines with
  | nil =>
    refine ⟨by simp, fun s hs => ?_⟩
    obtain rfl := Option.some.inj hs
    rfl
  | cons l lines =>
    rw [List.forall_mem_cons] at hp
    obtain ⟨row, literal, rfl⟩ := eq_entry hp.1
    have hrow : Line.row? (.entry row.level row.name literal) = some row := rfl
    have hstep : Sketch.start.step comments (fun _ _ => true)
        (.entry row.level row.name literal) =
        if row.level = 0 then some (Sketch.start.add row.level row.name) else none := by
      refine if_congr ?_ rfl rfl
      simp [Sketch.Reaches, Sketch.start, Sketch.belowComment]
      omega
    rw [List.foldlM_cons, hstep, List.filterMap_cons_some hrow]
    by_cases hzero : row.level = 0
    · have hends : EndsIn comments (Sketch.start.add row.level row.name) row :=
        endsIn_add (by simp [hzero]) (fun j hj => by omega) row.name
      obtain ⟨hsome, hrows⟩ := hends.foldlM hp.2
      rw [if_pos hzero]
      refine ⟨hsome.trans (by simp [hzero]), fun s hs => ?_⟩
      rw [hrows s hs]
      rfl
    · rw [if_neg hzero]
      refine ⟨by simp [hzero], fun s hs => ?_⟩
      cases hs

/-! ## The tree -/

theorem row?_isSome_of_spells {ts : List Token} {lines : List Line} (h : Spells ts lines)
    (hcomments : ∀ t ∈ ts, t.isComment = false) : ∀ l ∈ lines, (Line.row? l).isSome = true := by
  induction h with
  | nil => simp
  | last => simp [Line.row?]
  | entry _ _ _ _ ih =>
    simp only [List.mem_cons, forall_eq_or_imp]
    exact ⟨rfl, ih fun t ht => hcomments t (by simp [ht])⟩
  | @comment a ts c e level lines _ hc =>
    have hnot := hcomments c (by simp)
    rw [Token.isComment, hc] at hnot
    cases hnot

/-- A literal that is read in every forest, where new nodes are all that reading it adds. -/
def ReadsAnywhere (convert : Convert) (tag raw : String) : Prop :=
  ∀ f : Forest, f.WellFormed → ∃ v g, convert tag raw f = (.ok v, g) ∧ Grown f g root []

theorem Tidy.readsAnywhere {convert : Convert} (hc : Tidy convert) {tag raw : String}
    (h : (convert tag raw Forest.empty).1.isOk = true) : ReadsAnywhere convert tag raw := by
  intro f hf
  rw [hc.uniform tag raw wellFormed_empty hf] at h
  rcases hx : convert tag raw f with ⟨_ | v, g⟩ <;> rw [hx] at h
  · cases h
  · exact ⟨v, g, rfl, (hc.adds tag raw hf hx).grown⟩

theorem tends_of_readsAnywhere {convert : Convert} {container : NodeId} {l : Line}
    (hl : ∀ tag raw, Line.literal? l = some (tag, raw) → tag ≠ "" → ReadsAnywhere convert tag raw) :
    Tends convert (fun _ _ => true) (fun _ => True) container l := by
  cases l with
  | comment level text => exact fun f p s q h hk hd => trivial
  | entry level name literal =>
    intro f p s q h hk hd
    have hq := h.descend_lt hd
    have hleaf := leaf_grow h.wf hq name none
    match literal with
    | none => exact ⟨rfl, hleaf, trivial⟩
    | some (tag, raw) =>
      have hempty := hleaf.setValue (some (.string ""))
      simp only [fill, bind_apply, edit_apply]
      cases htag : tag.isEmpty with
      | true =>
        simp only [if_true]
        exact ⟨rfl, hempty.setValue _, trivial⟩
      | false =>
        have hne : tag ≠ "" := by
          rintro rfl
          cases htag
        obtain ⟨v, g, hv, hgrown⟩ := hl tag raw rfl hne _ hempty.grown.wf
        simp only [Bool.false_eq_true, if_false, bind_apply, hv]
        exact ⟨rfl, (hempty.trans hq hgrown).setValue _, trivial⟩

/-- A text without comments whose typed literals all convert is accepted exactly if its first
entry is not indented and each entry follows the one before. Then its nodes in pre-order are
those of its entries: they have their names and lie on their levels. -/
theorem parse_indentation {convert : Convert} (comments : Bool) {source : String}
    {ts : List Token} (ht : tokenize source = .ok ts) (hcomments : ∀ t ∈ ts, t.isComment = false)
    (hlit : ∀ l ∈ literals source, l.1 ≠ "" → ReadsAnywhere convert l.1 l.2) :
    ((∃ f, parse convert comments source = .ok f) ↔
        (∀ e ∈ (entries ts).head?, e.level = 0) ∧ (entries ts).IsChain (Follows comments)) ∧
      ∀ f, parse convert comments source = .ok f →
        ∃ ids, f.descendants root = root :: ids ∧
          List.Forall₂ (fun e id => f.name id = e.name ∧ ascend f (e.level + 1) id = some root)
            (entries ts) ids := by
  obtain ⟨lines, hts⟩ := spells_of_tokenize ht
  have hlines : ∀ l ∈ lines, Tends convert (fun _ _ => true) (fun _ => True) root l := by
    refine fun l hl => tends_of_readsAnywhere fun tag raw hl' htag => hlit (tag, raw) ?_ htag
    rw [literals, ht]
    dsimp only
    rw [literals_of_spells hts]
    exact List.mem_filterMap.mpr ⟨l, hl, hl'⟩
  obtain ⟨hsome, hrows⟩ := foldlM_start comments (row?_isSome_of_spells hts hcomments)
  rw [entries_of_spells hts]
  refine ⟨(exists_parse_iff_sketch hts hlines trivial ht).trans hsome, fun f hf => ?_⟩
  obtain ⟨p, s, hs, hdrawn, -⟩ := drawn_of_parse hts hlines trivial ht hf
  obtain ⟨ids, hids, hstands⟩ := hdrawn.nodes
  rw [hrows s hs] at hstands
  exact ⟨ids, hids, hstands.imp fun _ _ h => h.2⟩

/-- Two levels down, one up, with a typed literal on the way. -/
theorem parse_indentation_nested :
    let source := "a\r\n   b:int:5\r\n      c\r\n   d:e"
    ∃ ts f ids, tokenize source = .ok ts ∧
      entries ts = [⟨0, "a"⟩, ⟨1, "b"⟩, ⟨2, "c"⟩, ⟨1, "d"⟩] ∧
      parse Registry.builtin.convert false source = .ok f ∧ f.descendants root = root :: ids ∧
      List.Forall₂ (fun e id => f.name id = e.name ∧ ascend f (e.level + 1) id = some root)
        (entries ts) ids := by
  intro source
  have htokens : (tokenize source).toOption.any (fun ts => entries ts =
      [⟨0, "a"⟩, ⟨1, "b"⟩, ⟨2, "c"⟩, ⟨1, "d"⟩] ∧ ∀ t ∈ ts, t.isComment = false) = true := by
    decide +kernel
  have hlit : ∀ l ∈ literals source, l.1 ≠ "" →
      (Registry.builtin.convert l.1 l.2 Forest.empty).1.isOk = true := by decide +kernel
  cases ht : tokenize source with
  | error e =>
    rw [ht] at htokens
    cases htokens
  | ok ts =>
    rw [ht] at htokens
    obtain ⟨hentries, hcomments⟩ := of_decide_eq_true htokens
    obtain ⟨haccept, htree⟩ := parse_indentation false ht hcomments fun l hl htag =>
      (tidy_convert tidyReader_builtin).readsAnywhere (hlit l hl htag)
    obtain ⟨f, hf⟩ := haccept.mpr (by rw [hentries]; decide)
    obtain ⟨ids, hids, hstands⟩ := htree f hf
    exact ⟨ts, f, ids, rfl, hentries, hf, hids, hstands⟩

/-- The text has these entries and no comments. -/
def HasEntries (source : String) (rows : List Row) : Prop :=
  ∃ ts, tokenize source = .ok ts ∧ (∀ t ∈ ts, t.isComment = false) ∧ entries ts = rows

theorem hasEntries_of_any {source : String} {rows : List Row}
    (h : (tokenize source).toOption.any (fun ts => (∀ t ∈ ts, t.isComment = false) ∧
      entries ts = rows) = true) : HasEntries source rows := by
  cases ht : tokenize source with
  | error e =>
    rw [ht] at h
    cases h
  | ok ts =>
    rw [ht] at h
    exact ⟨ts, ht, of_decide_eq_true h⟩

theorem exists_parse_iff_isOk {convert : Convert} {source : String} :
    (∃ f, parse convert comments source = .ok f) ↔ (parse convert comments source).isOk = true := by
  cases parse convert comments source <;> simp [Except.isOk, Except.toBool]

/-- Levels and literals are not all that matters. If comments are kept, a node with their name
takes no nodes below it, even where the text has no comment. A reader that gives a value in every
forest, but renames a node that is there, spoils the names. A reader that gives a value in a new
forest may refuse to give one in the forest of a document. -/
theorem parse_indentation_limits :
    (HasEntries "..\r\n   a" [⟨0, ".."⟩, ⟨1, "a"⟩] ∧ literals "..\r\n   a" = [] ∧
      (∃ f, parse Registry.builtin.convert false "..\r\n   a" = .ok f) ∧
      ¬ ∃ f, parse Registry.builtin.convert true "..\r\n   a" = .ok f) ∧
    (let r := Registry.builtin.register (.named "Flag") "flag" (fun _ v => v.display)
        fun _ _ f => (.ok (.bool true), f.setName 1 "z");
      (∀ f, ∃ g, r.convert "flag" "x" f = (.ok (.bool true), g)) ∧
        literals "a\r\n   b:flag:x" = [("flag", "x")] ∧
        HasEntries "a\r\n   b:flag:x" [⟨0, "a"⟩, ⟨1, "b"⟩] ∧
        (parse r.convert false "a\r\n   b:flag:x").toOption.map
          (fun f => (f.descendants root).map f.name) = some ["", "z", "b"]) ∧
    (let r := Registry.builtin.register (.named "Flag") "flag" (fun _ v => v.display)
        fun _ raw f => if f.size = 1 then (.ok (.bool true), f)
          else (.error (.invalidValue "flag" raw .malformed), f);
      r.convert "flag" "x" Forest.empty = (.ok (.bool true), Forest.empty) ∧
        literals "a:flag:x" = [("flag", "x")] ∧ HasEntries "a:flag:x" [⟨0, "a"⟩] ∧
        ¬ ∃ f, parse r.convert false "a:flag:x" = .ok f) := by
  refine ⟨⟨hasEntries_of_any (by decide +kernel), by decide +kernel,
      exists_parse_iff_isOk.mpr (by decide +kernel),
      exists_parse_iff_isOk.not.mpr (by decide +kernel)⟩,
    ⟨fun f => ⟨_, rfl⟩, by decide +kernel, hasEntries_of_any (by decide +kernel),
      by decide +kernel⟩,
    ⟨rfl, by decide +kernel, hasEntries_of_any (by decide +kernel),
      exists_parse_iff_isOk.not.mpr (by decide +kernel)⟩⟩

end Outline.Document

import Outline.Proofs.Text.Lines
import Outline.Token.Scan

/-!
# The shape of a token list

The tokens of a text spell lines: indentation of whole levels, then a comment or an entry, then
a line break. The line break may be missing behind the last line, if that is an entry.
-/

namespace Outline

namespace Token

open Text

/-- A line that leaves tokens. The literal of an entry has the empty tag if it has none. -/
inductive Line
  | entry (level : Nat) (name : String) (literal : Option (String × String))
  | comment (level : Nat) (text : String)
  deriving DecidableEq, Repr

/-- The tokens in front of a line of the given level. -/
inductive Indent : List Token → Nat → Prop
  | none : Indent [] 0
  | some {t : Token} {level : Nat} (hk : t.kind = .space) (hl : level ≠ 0)
      (ht : t.text = String.ofList (List.replicate (3 * level) ' ')) : Indent [t] level

/-- The tokens of an entry, by its name and its literal. -/
inductive Words : List Token → String → Option (String × String) → Prop
  | bare {n : Token} (hn : n.kind = .name) : Words [n] n.text none
  | plain {n s v : Token} (hn : n.kind = .name) (hs : s.kind = .separator) (hv : v.kind = .value) :
      Words [n, s, v] n.text (some ("", v.text))
  | typed {n s t s' v : Token} (hn : n.kind = .name) (hs : s.kind = .separator)
      (ht : t.kind = .type) (hs' : s'.kind = .separator) (hv : v.kind = .value) :
      Words [n, s, t, s', v] n.text (some (t.text, v.text))

inductive Spells : List Token → List Line → Prop
  | nil : Spells [] []
  | last {a b : List Token} {level : Nat} {name : String} {literal : Option (String × String)}
      (ha : Indent a level) (hb : Words b name literal) :
      Spells (a ++ b) [.entry level name literal]
  | entry {a b ts : List Token} {e : Token} {level : Nat} {name : String}
      {literal : Option (String × String)} {lines : List Line} (ha : Indent a level)
      (hb : Words b name literal) (he : e.kind = .lineBreak) (hts : Spells ts lines) :
      Spells (a ++ b ++ e :: ts) (.entry level name literal :: lines)
  | comment {a ts : List Token} {c e : Token} {level : Nat} {lines : List Line}
      (ha : Indent a level) (hc : c.kind.isComment = true) (hne : c.text ≠ "")
      (htrim : trimmed c.text = c.text) (he : e.kind = .lineBreak) (hts : Spells ts lines) :
      Spells (a ++ c :: e :: ts) (.comment level c.text :: lines)

variable {s r : List Char} {ls indent : List Lexeme} (source : List Char)

/-- Bare text is a tag only in front of a separator. -/
theorem head?_of_readField_tag {t : List Char} (h : readField s = .ok (.tag t, r)) :
    r.head? = some ':' := by
  unfold readField at h
  split at h
  · obtain ⟨⟨t', r'⟩, -, h⟩ := bind_eq_ok.mp h
    cases pure_eq_ok.mp h
  · obtain ⟨⟨t', r'⟩, -, h⟩ := bind_eq_ok.mp h
    cases pure_eq_ok.mp h
  · obtain ⟨⟨t', r'⟩, -, h⟩ := bind_eq_ok.mp h
    cases pure_eq_ok.mp h
  · dsimp only at h
    split at h <;> cases h
    assumption

theorem words_scanValue (name start : List Char) (h : scanValue s = .ok (ls, r)) :
    ∃ literal, Words ((⟨.name, name, start⟩ :: ls).map (Lexeme.token source))
      (String.ofList name) literal := by
  unfold scanValue at h
  split at h
  · obtain ⟨⟨field, r₁⟩, hf, h⟩ := bind_eq_ok.mp h
    cases field with
    | tag t =>
      obtain ⟨⟨ls', r₂⟩, hv, h⟩ := bind_eq_ok.mp h
      cases pure_eq_ok.mp h
      cases r₁ with
      | nil => cases head?_of_readField_tag hf
      | cons c r₁ =>
        obtain rfl : c = ':' := by simpa using head?_of_readField_tag hf
        obtain ⟨⟨field', r₃⟩, -, hv⟩ := bind_eq_ok.mp hv
        cases field' with
        | tag t' => simp at hv
        | text t' =>
          cases pure_eq_ok.mp hv
          exact ⟨_, .typed rfl rfl rfl rfl rfl⟩
    | text t =>
      cases pure_eq_ok.mp h
      exact ⟨_, .plain rfl rfl rfl⟩
  · cases h
    exact ⟨_, .bare rfl⟩

/-- Lexemes in front of lexemes that spell lines, where nothing may follow a line without its
break. -/
def Leads (ls : List Lexeme) (r : List Char) : Prop :=
  ∀ (rest : List Lexeme) (lines : List Line), (r = [] → rest = []) →
    Spells (rest.map (Lexeme.token source)) lines →
    ∃ lines', Spells ((ls ++ rest).map (Lexeme.token source)) lines'

theorem leads_nil : Leads source [] r := fun _ _ _ h => ⟨_, h⟩

theorem leads_scanEntry {level : Nat} (hi : Indent (indent.map (Lexeme.token source)) level)
    (h : scanEntry s = .ok (ls, r)) : Leads source (indent ++ ls) r := by
  obtain ⟨⟨name, r₁⟩, -, h⟩ := bind_eq_ok.mp h
  obtain ⟨⟨vs, r₂⟩, hv, h⟩ := bind_eq_ok.mp h
  obtain ⟨⟨es, r₃⟩, he, h⟩ := bind_eq_ok.mp h
  cases pure_eq_ok.mp h
  obtain ⟨r', hr', he⟩ := bind_eq_ok.mp he
  cases pure_eq_ok.mp he
  obtain ⟨literal, hwords⟩ := words_scanValue source name s hv
  intro rest lines hrest hlines
  cases hr : r₂.isEmpty with
  | true =>
    rw [nextLine, if_pos hr] at hr'
    obtain rfl := hrest (Except.ok.inj hr').symm
    have hspell := Spells.last hi hwords
    exact ⟨_, by simpa using hspell⟩
  | false =>
    have hspell := Spells.entry hi hwords (e := Lexeme.token source ⟨.lineBreak, crlf, r₂⟩) rfl
      hlines
    exact ⟨_, by simpa using hspell⟩

theorem leads_finishComment {level : Nat} (hi : Indent (indent.map (Lexeme.token source)) level)
    {kind : Kind} (hk : kind.isComment = true) {raw t : List Char}
    (h : finishComment indent kind s (trim raw) t = .ok (ls, r)) : Leads source ls r := by
  obtain ⟨next, -, h⟩ := bind_eq_ok.mp h
  cases pure_eq_ok.mp h
  cases ht : (trim raw).isEmpty with
  | true => exact leads_nil source
  | false =>
    intro rest lines _ hlines
    have hne : (Lexeme.token source ⟨kind, trim raw, s⟩).text ≠ "" := by
      intro hempty
      have : trim raw = [] := by simpa [Lexeme.token] using hempty
      simp [this] at ht
    have htrim : trimmed (Lexeme.token source ⟨kind, trim raw, s⟩).text =
        (Lexeme.token source ⟨kind, trim raw, s⟩).text := by
      rw [Lexeme.token, trimmed, String.toList_ofList, trim_trim]
    have hspell := Spells.comment hi hk hne htrim
      (e := Lexeme.token source ⟨.lineBreak, crlf, t⟩) rfl hlines
    exact ⟨_, by simpa using hspell⟩

theorem leads_scanContent {level : Nat} (hi : Indent (indent.map (Lexeme.token source)) level)
    (h : scanContent indent s = .ok (ls, r)) : Leads source ls r := by
  unfold scanContent at h
  split at h
  · obtain ⟨⟨raw, r₁⟩, -, h⟩ := bind_eq_ok.mp h
    exact leads_finishComment source hi rfl h
  · exact leads_finishComment source hi rfl h
  · obtain ⟨⟨ls', r₁⟩, he, h⟩ := bind_eq_ok.mp h
    cases pure_eq_ok.mp h
    exact leads_scanEntry source hi he

theorem indent_space {width : Nat} (start : List Char) (hmod : width % 3 = 0) (hne : width ≠ 0) :
    Indent ([(⟨.space, List.replicate width ' ', start⟩ : Lexeme)].map (Lexeme.token source))
      (width / 3) := by
  refine .some rfl (by omega) ?_
  have hwidth : 3 * (width / 3) = width := by omega
  rw [hwidth, Lexeme.token]

theorem leads_scanLine (h : scanLine s = .ok (ls, r)) : Leads source ls r := by
  unfold scanLine at h
  dsimp only at h
  split at h
  · cases h
    exact leads_nil source
  · split at h
    · obtain ⟨r', -, h⟩ := bind_eq_ok.mp h
      cases pure_eq_ok.mp h
      exact leads_nil source
    · split at h
      · cases h
      · rename_i hw
        split at h
        · have hnone : Indent (([] : List Lexeme).map (Lexeme.token source)) 0 := .none
          exact leads_scanContent source hnone h
        · rename_i hne
          exact leads_scanContent source (indent_space source s (by omega) hne) h

theorem spells_scan (h : scan s = .ok ls) :
    ∃ lines, Spells (ls.map (Lexeme.token source)) lines := by
  fun_induction scan s generalizing ls with
  | case1 =>
    cases h
    exact ⟨[], .nil⟩
  | case2 => cases h
  | case3 c s ls' r hline ih =>
    obtain ⟨rest, hrest, h⟩ := bind_eq_ok.mp h
    cases pure_eq_ok.mp h
    obtain ⟨lines, hlines⟩ := ih hrest
    refine leads_scanLine source hline rest lines (fun hr => ?_) hlines
    rw [hr, scan] at hrest
    exact (Except.ok.inj hrest).symm

/-- The tokens of a text spell its lines. -/
theorem spells_of_tokenize {source : String} {ts : List Token} (h : tokenize source = .ok ts) :
    ∃ lines, Spells ts lines := by
  unfold tokenize tokenizeChars at h
  split at h
  · rename_i ls hls
    cases h
    exact spells_scan _ hls
  · cases h

/-! ## Lines by the kinds of their tokens -/

def commentForms : List (List Kind) := [[.lineComment], [.blockComment]]

/-- The kinds that an entry is made of: a name alone, or with a value, or with a typed value. -/
def entryForms : List (List Kind) :=
  [[.name], [.name, .separator, .value], [.name, .separator, .type, .separator, .value]]

/-- Tokens of one of the forms, or indentation and then such tokens. -/
def HasForm (forms : List (List Kind)) (line : List Token) : Prop :=
  ∃ form ∈ forms, line.map (·.kind) = form ∨ line.map (·.kind) = .space :: form

theorem Indent.hasForm {a b : List Token} {level : Nat} (ha : Indent a level)
    {forms : List (List Kind)} (hb : b.map (·.kind) ∈ forms) : HasForm forms (a ++ b) := by
  refine ⟨_, hb, ?_⟩
  cases ha with
  | none => exact .inl rfl
  | some hk => exact .inr (by simp [hk])

theorem Words.kinds_mem {b : List Token} {name : String} {literal : Option (String × String)}
    (hb : Words b name literal) : b.map (·.kind) ∈ entryForms := by
  cases hb with
  | bare hn => simp [entryForms, hn]
  | plain hn hs hv => simp [entryForms, hn, hs, hv]
  | typed hn hs ht hs' hv => simp [entryForms, hn, hs, ht, hs', hv]

theorem HasForm.mono {forms forms' : List (List Kind)} {line : List Token} (h : HasForm forms line)
    (hsub : forms ⊆ forms') : HasForm forms' line := by
  obtain ⟨form, hform, hline⟩ := h
  exact ⟨form, hsub hform, hline⟩

theorem Spells.exists_lines {ts : List Token} {lines : List Line} (h : Spells ts lines) :
    ∃ (full : List (List Token × Token)) (last : List Token),
      ts = full.flatMap (fun l => l.1 ++ [l.2]) ++ last ∧
      (∀ l ∈ full, HasForm (commentForms ++ entryForms) l.1 ∧ l.2.kind = .lineBreak) ∧
      (last = [] ∨ HasForm entryForms last) := by
  induction h with
  | nil => exact ⟨[], [], rfl, by simp, .inl rfl⟩
  | @last a b level name literal ha hb =>
    exact ⟨[], a ++ b, rfl, by simp, .inr (ha.hasForm hb.kinds_mem)⟩
  | @entry a b ts e level name literal lines ha hb he _ ih =>
    obtain ⟨full, last, rfl, hfull, hlast⟩ := ih
    refine ⟨(a ++ b, e) :: full, last, by simp, ?_, hlast⟩
    have hform : HasForm (commentForms ++ entryForms) (a ++ b) :=
      (ha.hasForm hb.kinds_mem).mono (List.subset_append_right _ _)
    simpa [hform, he] using hfull
  | @comment a ts c e level lines ha hc _ _ he _ ih =>
    obtain ⟨full, last, rfl, hfull, hlast⟩ := ih
    refine ⟨(a ++ [c], e) :: full, last, by simp, ?_, hlast⟩
    have hkind : [c].map (·.kind) ∈ commentForms := by
      cases hk : c.kind <;> simp [hk, Kind.isComment, commentForms] at hc ⊢
    have hform : HasForm (commentForms ++ entryForms) (a ++ [c]) :=
      (ha.hasForm hkind).mono (List.subset_append_left _ _)
    simpa [hform, he] using hfull

/-- An indentation has whole levels, and a comment has a text that is trimmed. -/
structure Proper (t : Token) : Prop where
  space : t.kind = .space →
    ∃ level, 0 < level ∧ t.text = String.ofList (List.replicate (3 * level) ' ')
  comment : t.isComment = true → t.text ≠ "" ∧ trimmed t.text = t.text

theorem proper_of_kind {t : Token} (hspace : t.kind ≠ .space) (hcomment : t.isComment = false) :
    Proper t :=
  ⟨fun h => absurd h hspace, fun h => by simp [hcomment] at h⟩

theorem proper_lineBreak {t : Token} (h : t.kind = .lineBreak) : Proper t :=
  proper_of_kind (by simp [h]) (by simp [Token.isComment, h, Kind.isComment])

theorem Indent.not_isComment {a : List Token} {level : Nat} (ha : Indent a level) :
    ∀ t ∈ a, t.isComment = false := by
  cases ha with
  | none => simp
  | some hk => simp [Token.isComment, hk, Kind.isComment]

theorem Indent.proper {a : List Token} {level : Nat} (ha : Indent a level) :
    ∀ t ∈ a, Proper t := by
  intro t ht
  refine ⟨fun _ => ?_, fun h => by simp [ha.not_isComment t ht] at h⟩
  cases ha with
  | none => cases ht
  | some hk hl htext =>
    obtain rfl := List.mem_singleton.mp ht
    exact ⟨level, Nat.pos_of_ne_zero hl, htext⟩

theorem Words.not_isComment {b : List Token} {name : String} {literal : Option (String × String)}
    (hb : Words b name literal) : ∀ t ∈ b, t.isComment = false := by
  have hforms : ∀ form ∈ entryForms, ∀ k ∈ form, k.isComment = false := by decide
  intro t ht
  exact hforms _ hb.kinds_mem t.kind (List.mem_map_of_mem ht)

theorem Words.proper {b : List Token} {name : String} {literal : Option (String × String)}
    (hb : Words b name literal) : ∀ t ∈ b, Proper t := by
  have hforms : ∀ form ∈ entryForms, .space ∉ form := by decide
  intro t ht
  refine proper_of_kind (fun hk => hforms _ hb.kinds_mem ?_) (hb.not_isComment t ht)
  exact hk ▸ List.mem_map_of_mem ht

theorem Spells.proper {ts : List Token} {lines : List Line} (h : Spells ts lines) :
    ∀ t ∈ ts, Proper t := by
  induction h with
  | nil => simp
  | last ha hb =>
    intro t ht
    rcases List.mem_append.mp ht with ht | ht
    · exact ha.proper t ht
    · exact hb.proper t ht
  | entry ha hb he _ ih =>
    intro t ht
    simp only [List.mem_append, List.mem_cons] at ht
    rcases ht with (ht | ht) | rfl | ht
    · exact ha.proper t ht
    · exact hb.proper t ht
    · exact proper_lineBreak he
    · exact ih t ht
  | @comment a ts c e level lines ha hc hne htrim he _ ih =>
    have hproper : Proper c := by
      refine ⟨fun h => ?_, fun _ => ⟨hne, htrim⟩⟩
      rw [h] at hc
      cases hc
    intro t ht
    simp only [List.mem_append, List.mem_cons] at ht
    rcases ht with ht | rfl | rfl | ht
    · exact ha.proper t ht
    · exact hproper
    · exact proper_lineBreak he
    · exact ih t ht

/-- The tokens of a text are those of its lines, one behind the other. A line is a comment or an
entry, with indentation or without, and ends in a line break; only a last line that is an entry
may lack the break. -/
theorem tokenize_lines {source : String} {ts : List Token} (h : tokenize source = .ok ts) :
    ∃ (full : List (List Token × Token)) (last : List Token),
      ts = full.flatMap (fun l => l.1 ++ [l.2]) ++ last ∧
      (∀ l ∈ full, HasForm (commentForms ++ entryForms) l.1 ∧ l.2.kind = .lineBreak) ∧
      (last = [] ∨ HasForm entryForms last) ∧ ∀ t ∈ ts, Proper t := by
  obtain ⟨lines, hlines⟩ := spells_of_tokenize h
  obtain ⟨full, last, hts, hfull, hlast⟩ := hlines.exists_lines
  exact ⟨full, last, hts, hfull, hlast, hlines.proper⟩

/-- A blank line, an indented comment that is empty, a comment, and a last line without a break. -/
theorem tokenize_lines_mixed :
    let source := "a:int:5\r\n   \n   //\n   /* c */ \r\n   b:\nd"
    ∃ ts, tokenize source = .ok ts ∧
      ts.map (·.kind) = [.name, .separator, .type, .separator, .value, .lineBreak, .space,
        .blockComment, .lineBreak, .space, .name, .separator, .value, .lineBreak, .name] ∧
      ∃ (full : List (List Token × Token)) (last : List Token),
        ts = full.flatMap (fun l => l.1 ++ [l.2]) ++ last ∧
        (∀ l ∈ full, HasForm (commentForms ++ entryForms) l.1 ∧ l.2.kind = .lineBreak) ∧
        (last = [] ∨ HasForm entryForms last) ∧ ∀ t ∈ ts, Proper t := by
  intro source
  have hkinds : (tokenize source).toOption.map (fun ts => ts.map (·.kind)) =
      some [.name, .separator, .type, .separator, .value, .lineBreak, .space,
        .blockComment, .lineBreak, .space, .name, .separator, .value, .lineBreak, .name] := by
    decide +kernel
  cases ht : tokenize source with
  | error e =>
    rw [ht] at hkinds
    cases hkinds
  | ok ts =>
    rw [ht] at hkinds
    exact ⟨ts, rfl, Option.some.inj hkinds, tokenize_lines ht⟩

end Token
end Outline

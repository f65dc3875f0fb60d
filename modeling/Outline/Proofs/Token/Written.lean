import Outline.Proofs.Token.Grammar
import Outline.Proofs.Token.Line

/-!
# Texts that are written line by line

A line that is written stands alone: whatever follows it, it is scanned into the tokens that spell
it, or it is refused. So a text that is written line by line is scanned unless a line is refused.
-/

namespace Outline.Token

open Text Document

variable {w : List Char} {line : Line} {ls : List Lexeme} {level : Nat} {name : String}
  {literal : Option (String × String)}

/-- A text is scanned into lexemes that spell the line, whatever follows it. -/
def ScansAs (w : List Char) (line : Line) : Prop :=
  ∀ rest : List Char, ∃ ls : List Lexeme,
    (scan (w ++ rest) = do
      let behind ← scan rest
      return ls ++ behind) ∧
    ∀ (source : List Char) (ts : List Token) (lines : List Line), Spells ts lines →
      Spells (ls.map (Lexeme.token source) ++ ts) (line :: lines)

/-- A text is not scanned, whatever follows it. -/
def Refused (w : List Char) : Prop := ∀ rest : List Char, ∃ e, scan (w ++ rest) = .error e

theorem ScansAs.not_refused (h : ScansAs w line) : ¬ Refused w := by
  intro hrefused
  obtain ⟨ls, hls, -⟩ := h []
  obtain ⟨e, he⟩ := hrefused []
  rw [hls, scan] at he
  cases he

theorem scan_flatMap {ws : List (List Char × Line)} (h : ∀ x ∈ ws, ScansAs x.1 x.2) :
    ∃ ls, scan (ws.flatMap (·.1)) = .ok ls ∧
      ∀ source, Spells (ls.map (Lexeme.token source)) (ws.map (·.2)) := by
  induction ws with
  | nil => exact ⟨[], by rw [List.flatMap_nil, scan], fun _ => .nil⟩
  | cons x ws ih =>
    obtain ⟨behind, hbehind, hspells⟩ := ih fun y hy => h y (by simp [hy])
    obtain ⟨ls, hls, hline⟩ := h x (by simp) (ws.flatMap (·.1))
    refine ⟨ls ++ behind, ?_, fun source => ?_⟩
    · rw [List.flatMap_cons, hls, hbehind]
      rfl
    · rw [List.map_append]
      exact hline source _ _ (hspells source)

theorem scan_flatMap_error {ws : List (List Char × Line)}
    (h : ∀ x ∈ ws, ScansAs x.1 x.2 ∨ Refused x.1) (hrefused : ∃ x ∈ ws, Refused x.1) :
    ∃ e, scan (ws.flatMap (·.1)) = .error e := by
  induction ws with
  | nil => simp at hrefused
  | cons x ws ih =>
    rw [List.flatMap_cons]
    rcases h x (by simp) with hscans | hx
    · obtain ⟨y, hy, hbad⟩ := hrefused
      have hbehind : ∃ y ∈ ws, Refused y.1 := by
        rcases List.mem_cons.mp hy with rfl | hy
        · exact absurd hbad hscans.not_refused
        · exact ⟨y, hy, hbad⟩
      obtain ⟨e, he⟩ := ih (fun y hy => h y (by simp [hy])) hbehind
      obtain ⟨ls, hls, -⟩ := hscans (ws.flatMap (·.1))
      exact ⟨e, by rw [hls, he]; rfl⟩
    · exact hx _

/-! ## Entries -/

theorem indent_indentLexemes (source : List Char) (level : Nat) (start : List Char) :
    Indent ((indentLexemes level start).map (Lexeme.token source)) level := by
  by_cases hl : level = 0
  · subst hl
    exact .none
  · rw [indentLexemes, if_neg hl]
    exact .some rfl hl rfl

theorem spells_of_shapes (hlit : ∀ l ∈ literal, l.1 = "")
    (hls : ls.map Lexeme.shape = lineShapes level name (literal.map fun l => ("string", l.2)))
    (source : List Char) {ts : List Token} {lines : List Line} (hts : Spells ts lines) :
    Spells (ls.map (Lexeme.token source) ++ ts) (.entry level name literal :: lines) := by
  obtain ⟨indents, tail, rfl, hindents, htail⟩ := List.map_eq_append_iff.mp hls
  obtain ⟨n, behind, rfl, hn, hbehind⟩ := List.map_eq_cons_iff.mp htail
  obtain ⟨values, last, rfl, hvalues, hlast⟩ := List.map_eq_append_iff.mp hbehind
  obtain ⟨e, rfl, he⟩ := List.map_eq_singleton_iff.mp hlast
  have htext : ∀ {l : Lexeme} {kind : Kind} {text : String}, l.shape = (kind, text.toList) →
      (l.token source).kind = kind ∧ (l.token source).text = text := by
    intro l kind text hl
    obtain ⟨rfl, ht⟩ := Prod.mk.inj hl
    exact ⟨rfl, by rw [Lexeme.token, ht, String.ofList_toList]⟩
  have hi : Indent (indents.map (Lexeme.token source)) level := by
    by_cases hl : level = 0
    · subst hl
      rw [List.map_eq_nil_iff.mp hindents]
      exact .none
    · rw [if_neg hl] at hindents
      obtain ⟨i, rfl, hi⟩ := List.map_eq_singleton_iff.mp hindents
      obtain ⟨hk, ht⟩ := Prod.mk.inj hi
      exact .some hk hl (by rw [Lexeme.token, ht])
  obtain ⟨hnk, rfl⟩ := htext hn
  have hek : (e.token source).kind = .lineBreak := (Prod.mk.inj he).1
  have hw : Words ((n :: values).map (Lexeme.token source)) (n.token source).text literal := by
    cases literal with
    | none =>
      rw [List.map_eq_nil_iff.mp hvalues]
      exact .bare hnk
    | some l =>
      rw [Option.map_some, Option.map_some, Option.getD_some, valueShapes_string] at hvalues
      obtain ⟨s, hvalues', rfl, hs, hvalue⟩ := List.map_eq_cons_iff.mp hvalues
      obtain ⟨v, rfl, hv⟩ := List.map_eq_singleton_iff.mp hvalue
      obtain ⟨hvk, hvt⟩ := htext hv
      have hl : l = ("", (v.token source).text) := Prod.ext (hlit l rfl) hvt.symm
      rw [hl]
      exact .plain hnk (Prod.mk.inj hs).1 hvk
  have hspells := Spells.entry hi hw hek hts
  simpa using hspells

theorem scansAs_entry {describe : Value → String × String}
    (hdescribe : ∀ s, describe (.string s) = ("string", s)) (hlit : ∀ l ∈ literal, l.1 = "")
    (level : Nat) (name : String) :
    ScansAs (lineText describe false level name (literal.map fun l => .string l.2) ++ crlf)
      (.entry level name literal) := by
  intro rest
  have htags : ∀ v ∈ literal.map fun l => Value.string l.2, PlainTag (describe v).1 := by
    intro v hv
    obtain ⟨l, -, rfl⟩ := Option.map_eq_some_iff.mp hv
    rw [hdescribe]
    exact .inl rfl
  obtain ⟨ls, hls, hshapes⟩ := scanLine_lineText level name htags rest
  have hmap : (literal.map fun l => Value.string l.2).map describe =
      literal.map fun l => ("string", l.2) := by
    rw [Option.map_map]
    exact Option.map_congr fun l _ => hdescribe l.2
  rw [hmap] at hshapes
  refine ⟨ls, ?_, fun source ts lines hts => spells_of_shapes hlit hshapes source hts⟩
  rw [List.append_assoc]
  exact scan_of_scanLine (by simp [crlf]) hls

end Outline.Token

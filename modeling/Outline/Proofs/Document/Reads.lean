import Outline.Proofs.Document.Steps
import Outline.Proofs.Forest.Growth
import Outline.Proofs.Token.Line

/-!
# Reading what was written

The text of a grove is scanned line by line, and its tokens build the grove again, below any
node and behind anything that stands there. The values in it have to be written in such a way
that the registry reads them back.
-/

namespace Outline

open Token (Shape Shapes PlainTag lineShapes valueShapes)

/-- Kind and text of a token, without its position. -/
def Token.shape (t : Token) : Shape := (t.kind, t.text.toList)

namespace Document

/-! ## Scanning -/

/-- A text is scanned into tokens of the given kinds and texts. -/
def Scans (s : List Char) (shapes : List Shape) : Prop :=
  ∃ ls, Token.scan s = .ok ls ∧ ls.map Token.Lexeme.shape = shapes

variable {r : Registry}

theorem scans_nil : Scans [] [] := ⟨[], by rw [Token.scan], rfl⟩

theorem Scans.line {s rest : List Char} {shapes shapes' : List Shape} (hs : s ≠ [])
    (hline : Shapes (Token.scanLine s) shapes rest) (hrest : Scans rest shapes') :
    Scans s (shapes ++ shapes') := by
  obtain ⟨ls, hls, rfl⟩ := hline
  obtain ⟨ls', hls', rfl⟩ := hrest
  refine ⟨ls ++ ls', ?_, List.map_append⟩
  rw [Token.scan_of_scanLine hs hls, hls']
  rfl

def Grove.shapes (r : Registry) : Nat → Grove → List Shape
  | _, .nil => []
  | level, .plain name value ch sib =>
    lineShapes level name (value.map (pair r)) ++
      (ch.shapes r (level + 1) ++ sib.shapes r level)
  | level, .nested name inner ch sib =>
    lineShapes level name (some ("node", String.ofList (inner.text r 0))) ++
      (ch.shapes r (level + 1) ++ sib.shapes r level)

theorem plainTag_node : PlainTag "node" := by
  refine .inr ⟨by decide, List.all_eq_true.mp rfl, rfl, ⟨by decide, by decide, fun r h => ?_⟩⟩
  exact absurd (List.cons.inj h).1 (by decide)

theorem Grove.scans_text {g : Grove} (hg : g.All fun v => PlainTag (pair r v).1) (level : Nat)
    {rest : List Char} {shapes : List Shape} (hrest : Scans rest shapes) :
    Scans (g.text r level ++ rest) (g.shapes r level ++ shapes) := by
  induction g generalizing level rest shapes with
  | nil => exact hrest
  | plain name value ch sib ihch ihsib =>
    have hbelow := ihch hg.2.1 (level + 1) (ihsib hg.2.2 level hrest)
    have hline := Token.scanLine_lineText level name hg.1
      (ch.text r (level + 1) ++ (sib.text r level ++ rest))
    have hscan := Scans.line (by simp [Text.crlf]) hline hbelow
    simpa only [Grove.text, Grove.shapes, List.append_assoc] using hscan
  | nested name inner ch sib _ ihch ihsib =>
    have hbelow := ihch hg.2.1 (level + 1) (ihsib hg.2.2 level hrest)
    let describe : Value → String × String := fun _ => ("node", String.ofList (inner.text r 0))
    have htag : ∀ v ∈ some (Value.string ""), PlainTag (describe v).1 := fun _ _ => plainTag_node
    have hline := Token.scanLine_lineText level name htag
      (ch.text r (level + 1) ++ (sib.text r level ++ rest))
    have hscan := Scans.line (by simp [Text.crlf]) hline hbelow
    simpa only [Grove.text, Grove.shapes, List.append_assoc, Option.map_some] using hscan

theorem tokenize_of_scans {s : List Char} {shapes : List Shape} (h : Scans s shapes) :
    ∃ ts, tokenize (String.ofList s) = .ok ts ∧ ts.map Token.shape = shapes := by
  obtain ⟨ls, hls, rfl⟩ := h
  refine ⟨ls.map (·.token s), ?_, ?_⟩
  · rw [tokenize, String.toList_ofList, Token.tokenizeChars, hls]
  · rw [List.map_map]
    refine List.map_congr_left fun l _ => ?_
    simp [Token.shape, Token.Lexeme.token, Token.Lexeme.shape]

/-! ## Values that are read back -/

/-- A scalar that the registry writes in the same way in every forest, under a tag that can stand
bare in front of the text. -/
structure Tagged (r : Registry) (v : Value) : Prop where
  scalar : ∀ c, v ≠ .node c
  steady : Steady r v
  tag_ne_empty : (pair r v).1 ≠ ""
  tag_ne_string : (pair r v).1 ≠ "string"
  bareTag : Token.BareTag (pair r v).1.toList

/-- A scalar that the registry writes under a plain tag, and reads back from there as an equal
value, in any forest, and at any depth that leaves room for literals inside its text. -/
structure ReadsBack (r : Registry) (v v' : Value) : Prop extends Tagged r v where
  reads : ∀ n f, (pair r v).2.length ≤ n →
    r.convertWithin (n + 1) (pair r v).1 (pair r v).2 f = (.ok v', f)
  equal : v.equal v' = true

/-- A scalar that is read back as an equal value with the property `T`. What is read may depend on
the forest, and reading may add nodes to it. -/
structure ReadsTo (r : Registry) (T : Value → Prop) (v : Value) : Prop extends Tagged r v where
  reads : ∀ (n : Nat) (f : Forest), f.WellFormed → (pair r v).2.length ≤ n → ∃ v' g,
    r.convertWithin (n + 1) (pair r v).1 (pair r v).2 f = (.ok v', g) ∧
      Forest.Grown f g Forest.root [] ∧ v.equal v' = true ∧ T v'

theorem ReadsBack.readsTo {v v' : Value} (h : ReadsBack r v v') {T : Value → Prop} (hT : T v') :
    ReadsTo r T v :=
  { h.toTagged with
    reads := fun n f hf hn => ⟨v', f, h.reads n f hn, .refl hf _, h.equal, hT⟩ }

/-- A text, or a scalar that is read back as one of the values that `T` relates it to. -/
def Readable (r : Registry) (T : Value → Value → Prop) (v : Value) : Prop :=
  (∃ s, v = .string s) ∨ ReadsTo r (T v) v

/-- What stands in place of a value when it has been written and read. -/
inductive Becomes (T : Value → Value → Prop) : Option Value → Option Value → Prop
  | none : Becomes T none none
  | string (s : String) : Becomes T (some (.string s)) (some (.string s))
  | scalar {v v' : Value} (heq : v.equal v' = true) (h : T v v') : Becomes T (some v) (some v')

variable {T : Value → Value → Prop}

theorem Becomes.alike {v v' : Option Value} (h : Becomes T v v') : Alike v v' := by
  cases h with
  | none => exact .inl ⟨rfl, rfl⟩
  | string s => exact .inr ⟨_, _, rfl, rfl, by simp [Value.equal]⟩
  | scalar heq => exact .inr ⟨_, _, rfl, rfl, heq⟩

theorem Standard.steady_string (hr : Standard r) (s : String) : Steady r (.string s) := by
  intro children
  rw [pair, hr.describe_string, hr.describe_string]

theorem Readable.steady (hr : Standard r) {v : Value} (h : Readable r T v) : Steady r v := by
  rcases h with ⟨s, rfl⟩ | h
  · exact hr.steady_string s
  · exact h.steady

theorem Readable.plainTag (hr : Standard r) {v : Value} (h : Readable r T v) :
    PlainTag (pair r v).1 := by
  rcases h with ⟨s, rfl⟩ | h
  · rw [pair, hr.describe_string]
    exact .inl rfl
  · exact .inr ⟨h.tag_ne_empty, h.bareTag⟩

/-! ## Depth of conversion -/

/-- How many levels of conversion the literals of a grove take. -/
def Grove.need (r : Registry) : Grove → Nat
  | .nil => 0
  | .plain _ value ch sib =>
    max ((value.map fun v => (pair r v).2.length + 1).getD 0) (max (ch.need r) (sib.need r))
  | .nested _ inner ch sib => max (inner.need r + 1) (max (ch.need r) (sib.need r))

/-- Literals are converted as by the registry, at least `k` levels of them or as many as their
text is long. -/
def Serves (r : Registry) (k : Nat) (convert : Convert) : Prop :=
  ∀ tag raw, ∃ n, min k raw.length ≤ n ∧ convert tag raw = r.convertWithin (n + 1) tag raw

theorem serves_convertWithin {k n : Nat} (h : k < n) : Serves r k (r.convertWithin n) := by
  intro tag raw
  obtain ⟨m, rfl⟩ : ∃ m, n = m + 1 := ⟨n - 1, by omega⟩
  exact ⟨m, by omega, rfl⟩

theorem serves_convert (k : Nat) : Serves r k r.convert :=
  fun _ raw => ⟨raw.length, Nat.min_le_right _ _, rfl⟩

theorem length_le_valueText (tag text : String) :
    text.length ≤ (valueText tag text).length := by
  have hbody : text.toList.length ≤ (if text.isEmpty && tag != "string" then ['"', '"']
      else Text.quote true text.toList).length := by
    split
    · rename_i h
      have hempty : text = "" := by simpa using (Bool.and_eq_true_iff.mp h).1
      simp [hempty]
    · exact Text.length_le_quote true text.toList
  rw [← String.length_toList]
  simp only [valueText, List.cons_append, List.length_cons, List.length_append]
  omega

theorem length_le_lineText (describe : Value → String × String) (level : Nat) (name : String)
    (v : Value) : (describe v).2.length ≤ (lineText describe false level name (some v)).length := by
  have hvalue := length_le_valueText (describe v).1 (describe v).2
  simp only [lineText, Bool.false_and, Bool.false_eq_true, if_false, Option.map_some,
    Option.getD_some, List.length_append]
  omega

/-- The text of a grove is longer than its literals are deep. -/
theorem Grove.need_le_length (g : Grove) (level : Nat) :
    g.need r ≤ (g.text r level).length := by
  induction g generalizing level with
  | nil => exact Nat.zero_le _
  | plain name value ch sib ihch ihsib =>
    have hch := ihch (level + 1)
    have hsib := ihsib level
    have hvalue : (value.map fun v => (pair r v).2.length + 1).getD 0 ≤
        (lineText (pair r) false level name value).length + 1 := by
      cases value with
      | none => exact Nat.zero_le _
      | some v =>
        have hline := length_le_lineText (pair r) level name v
        simpa using hline
    simp only [need, text, List.length_append, Text.crlf_length]
    omega
  | nested name inner ch sib ihin ihch ihsib =>
    have hin := ihin 0
    have hch := ihch (level + 1)
    have hsib := ihsib level
    have hline := length_le_lineText (fun _ => ("node", String.ofList (inner.text r 0))) level name
      (.string "")
    rw [String.length_ofList] at hline
    simp only [need, text, List.length_append, Text.crlf_length]
    omega

end Document
end Outline

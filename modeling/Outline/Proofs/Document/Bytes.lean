import Outline.Document.Builtin
import Outline.Proofs.Text.Position
import Outline.Proofs.Text.Utf8

/-!
# Documents given as bytes

Bytes that are text are read as that text. On other bytes there is a report, which is placed right
behind the longest part at the front that is text, and which quotes the end of that part.
-/

namespace Outline

namespace Document

open Text

/-- What a report on broken bytes quotes of the text in front of them: all of it, if it has no more
than forty bytes, and else its last forty bytes, if they are text; if they begin in the midst of a
character, nothing. -/
inductive Quotes (s : List Char) : List Char → Prop
  | all (h : (bytesOf s).length ≤ 40) : Quotes s s
  | tail {front back : List Char} (h : s = front ++ back) (hlen : (bytesOf back).length = 40) :
      Quotes s back
  | nothing (hlen : 40 < (bytesOf s).length)
      (h : ∀ front back, s = front ++ back → (bytesOf back).length ≠ 40) : Quotes s []

theorem quotes_brokenContext (s : List Char) : Quotes s (brokenContext s) := by
  rw [brokenContext, byteLength_eq, contextLength]
  by_cases hshort : (bytesOf s).length ≤ 40
  · have hall : dropBytes 0 s = s := dropBytes_append [] s
    rw [Nat.sub_eq_zero_of_le hshort, hall]
    exact .all hshort
  · by_cases hcut : ∃ front back, s = front ++ back ∧ (bytesOf back).length = 40
    · obtain ⟨front, back, rfl, hback⟩ := hcut
      have hlen : (bytesOf (front ++ back)).length - 40 = (bytesOf front).length := by
        rw [bytesOf_append, List.length_append, hback, Nat.add_sub_cancel]
      rw [hlen, dropBytes_append]
      exact .tail rfl hback
    · have hne : ∀ front back, s = front ++ back → (bytesOf back).length ≠ 40 :=
        fun front back hs hback => hcut ⟨front, back, hs, hback⟩
      rw [dropBytes_eq_nil]
      · exact .nothing (Nat.not_le.mp hshort) hne
      · rintro front back rfl hfront
        refine hne front back rfl ?_
        rw [bytesOf_append, List.length_append] at hshort hfront
        omega

/-- A report on bytes that are no text: `valid` is their longest part at the front that is text,
`place` is the line and column right behind it, and `context` quotes its end. -/
structure Reports (bytes : List UInt8) (valid : List Char) (place : Position)
    (context : List Char) : Prop where
  isText : bytesOf valid <+: bytes
  longest : ∀ s, bytesOf s <+: bytes → s <+: valid
  behind : ∃ front last, valid = front ++ last ∧ '\n' ∉ last ∧
    (front = [] ∨ front.getLast? = some '\n') ∧ place = ⟨front.count '\n' + 1, last.length + 1⟩
  quotes : Quotes valid context

theorem reports_decodeBytes (bytes : List UInt8) :
    Reports bytes (decodeBytes bytes).1 (Position.after (decodeBytes bytes).1)
      (brokenContext (decodeBytes bytes).1) where
  isText := ⟨_, bytesOf_decodeBytes bytes⟩
  longest _ hs := isPrefix_decodeBytes hs
  behind := by
    obtain ⟨front, last, hsplit, hlast, hfront⟩ := exists_last_line (decodeBytes bytes).1
    exact ⟨front, last, hsplit, hlast, hfront, hsplit ▸ Position.after_split hlast hfront⟩
  quotes := quotes_brokenContext _

variable {convert : Convert} {comments : Bool} {bytes : List UInt8}

theorem parseBytes_of_broken (h : (decodeBytes bytes).2 ≠ []) :
    parseBytes convert comments bytes =
      .error (.syntaxError .invalidUtf8 (Position.after (decodeBytes bytes).1)
        (String.ofList (brokenContext (decodeBytes bytes).1))) := by
  rw [parseBytes]
  split
  · rename_i hdecode
    rw [hdecode] at h
    exact absurd rfl h
  · rename_i hdecode
    rw [hdecode]

/-- Bytes that are text are read as the text, and on others there is a report. -/
theorem parseBytes_report (convert : Convert) (comments : Bool) (bytes : List UInt8) :
    (∀ source : String, bytesOf source.toList = bytes →
      parseBytes convert comments bytes = parse convert comments source) ∧
    ((∀ s, bytesOf s ≠ bytes) → ∃ valid place context, Reports bytes valid place context ∧
      parseBytes convert comments bytes =
        .error (.syntaxError .invalidUtf8 place (String.ofList context))) := by
  constructor
  · rintro source rfl
    rw [parseBytes, decodeBytes_bytesOf]
    simp only [String.ofList_toList]
  · intro hbroken
    refine ⟨_, _, _, reports_decodeBytes bytes, parseBytes_of_broken fun hrest => ?_⟩
    have hbytes := bytesOf_decodeBytes bytes
    rw [hrest, List.append_nil] at hbytes
    exact hbroken _ hbytes

/-- A text, and a byte that begins no character behind 41 bytes of text, of which the first two are
one character. -/
theorem parseBytes_report_cut :
    let bytes := bytesOf ('é' :: List.replicate 39 'a') ++ [0xFF]
    parseBytes Registry.builtin.convert true (bytesOf "a: ü".toList) =
        parse Registry.builtin.convert true "a: ü" ∧
      ∃ valid, Reports bytes valid ⟨1, 41⟩ [] ∧
        parseBytes Registry.builtin.convert false bytes =
          .error (.syntaxError .invalidUtf8 ⟨1, 41⟩ "") := by
  intro bytes
  have hdecode : decodeBytes bytes = ('é' :: List.replicate 39 'a', [0xFF]) :=
    decodeBytes_of_decodeChar _ rfl
  have hbroken : ∀ s, bytesOf s ≠ bytes := by
    intro s hs
    rw [← hs, decodeBytes_bytesOf] at hdecode
    cases hdecode
  refine ⟨(parseBytes_report _ true _).1 "a: ü" rfl, ?_⟩
  obtain ⟨valid, place, context, hreport, h⟩ :=
    (parseBytes_report Registry.builtin.convert false bytes).2 hbroken
  have hcomputed : parseBytes Registry.builtin.convert false bytes = _ :=
    parseBytes_of_broken (by rw [hdecode]; exact List.cons_ne_nil _ _)
  have hplace : Position.after ('é' :: List.replicate 39 'a') = ⟨1, 41⟩ := by decide
  have hcontext : brokenContext ('é' :: List.replicate 39 'a') = [] := by decide
  rw [hdecode, hplace, hcontext, h] at hcomputed
  obtain ⟨rfl, rfl⟩ : place = ⟨1, 41⟩ ∧ context = [] := by simpa using hcomputed
  exact ⟨valid, hreport, h⟩

end Document
end Outline

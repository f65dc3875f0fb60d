import Outline.Proofs.Token.Line

/-!
# Written texts as tokens

Whatever a text is, where it was written as a value or as a name it is scanned as one token with
this text, and the scanner goes on right behind what was written (`scan_quote`).
-/

namespace Outline.Token

open Text

variable {t r : List Char}

/-- The lexemes of a value and the separator in front of it, where `s` begins with the value. -/
def valueLexemes (t s : List Char) : List Lexeme :=
  [⟨.separator, [':'], ':' :: s⟩, ⟨.value, t, s⟩]

/-- Behind a separator, `s` is scanned as one value with the text `t`, and `r` is left. -/
structure ScansValue (t s r : List Char) : Prop where
  field : readField s = .ok (.text t, r)
  behindName : scanValue (':' :: s) = .ok (valueLexemes t s, r)
  behindTag : scanTypedValue (':' :: s) = .ok (valueLexemes t s, r)

/-- Behind the indentation of a line, `s` is scanned as one name with the text `t`, and then the
scanner goes on with `r`. -/
structure ScansName (t s r : List Char) : Prop where
  name : readName s = .ok (t, r)
  content : ∀ indent, scanContent indent s = do
    let (value, u) ← scanValue r
    let (ending, u) ← scanLineEnd u
    return (indent ++ (⟨.name, t, s⟩ :: value ++ ending), u)

theorem scansValue_quote (t : List Char) (hr : atLineEnd r = true) :
    ScansValue t (quote true t ++ r) r := by
  have hread := readField_quote t hr
  refine ⟨hread, ?_, ?_⟩
  · rw [scanValue, hread]
    rfl
  · rw [scanTypedValue, hread]
    rfl

theorem scansName_quote (ht : t ≠ []) (hr : endsName r = true) :
    ScansName t (quote false t ++ r) r := by
  have hread := readName_quote t hr
  refine ⟨hread, fun indent => ?_⟩
  rw [scanContent_of_uncommented (startsEntry_quote ht hr).comment, scanEntry, hread]
  simp only [bind_assoc, pure_bind]
  rfl

/-- A text is read back where it was written, as one token that starts there, and all that stands
behind it is left. A value is written in front of a line break, and a name in front of a separator
or a line break. -/
theorem scan_quote (t rest : List Char) :
    ScansValue t (quote true t ++ (crlf ++ rest)) (crlf ++ rest) ∧
      (t ≠ [] → ScansName t (quote false t ++ ':' :: rest) (':' :: rest) ∧
        ScansName t (quote false t ++ (crlf ++ rest)) (crlf ++ rest)) :=
  ⟨scansValue_quote t (atLineEnd_crlf rest), fun ht =>
    ⟨scansName_quote ht rfl, scansName_quote ht rfl⟩⟩

/-- A text with both kinds of quotes at its ends, a backslash, a lone carriage return and a line
break; and one whose line breaks are all canonical, so that it is written as it stands. -/
theorem scan_quote_breaks :
    let t := "\"\r\n\\\r'".toList
    let u := "\u00a0\r\n\"".toList
    quote false t = "\"\\\"\\x000D\\n\\\\\\x000D'\"".toList ∧
      quote true u = "@\"\u00a0\r\n\"\"\"".toList ∧ t ≠ [] ∧
      ScansName t (quote false t ++ ":x".toList) ":x".toList ∧
      ScansValue u (quote true u ++ "\r\n\"".toList) "\r\n\"".toList := by
  intro t u
  have ht : t ≠ [] := by decide
  exact ⟨by decide, by decide, ht, ((scan_quote t ['x']).2 ht).1, (scan_quote u ['"']).1⟩

end Outline.Token

import Mathlib.Data.List.Basic
import Outline.Proofs.Text.Quote

/-!
# The grammar of single-line literals

The body of a single-line literal is a row of items up to the closing quote: characters that
stand for themselves, and escapes. What is read is such a row and what it stands for. There is
one kind of escape more than the grammar has: in a code, a plus sign may take the place of the
first digit.
-/

namespace Outline.Text

/-! ## The grammar -/

/-- What one character behind a backslash stands for. -/
def shortEscapes : List (Char × Char) :=
  [('"', '"'), ('\'', '\''), ('\\', '\\'), ('a', '\x07'), ('b', '\x08'), ('f', '\x0c'),
    ('t', '\t'), ('v', '\x0b'), ('n', '\n')]

/-- `c` is the hexadecimal digit of the value `d`, in lower or upper case. -/
def HexDigit (c : Char) (d : Nat) : Prop :=
  "0123456789abcdef".toList[d]? = some c ∨ "0123456789ABCDEF".toList[d]? = some c

instance (c : Char) (d : Nat) : Decidable (HexDigit c d) := inferInstanceAs (Decidable (_ ∨ _))

/-- An escape without its backslash, and what it stands for. -/
inductive Escape : List Char → List Char → Prop
  | short {c e : Char} (h : (c, e) ∈ shortEscapes) : Escape [c] [e]
  | lineBreak : Escape ['r', '\\', 'n'] ['\r', '\n']
  | code {c₁ c₂ c₃ c₄ e : Char} {d₁ d₂ d₃ d₄ : Nat} (h₁ : HexDigit c₁ d₁) (h₂ : HexDigit c₂ d₂)
      (h₃ : HexDigit c₃ d₃) (h₄ : HexDigit c₄ d₄)
      (he : e.toNat = 4096 * d₁ + 256 * d₂ + 16 * d₃ + d₄) :
      Escape ['x', c₁, c₂, c₃, c₄] [e]

/-- A code with a plus sign and three digits, without its backslash. -/
inductive SignedCode : List Char → List Char → Prop
  | mk {c₂ c₃ c₄ e : Char} {d₂ d₃ d₄ : Nat} (h₂ : HexDigit c₂ d₂) (h₃ : HexDigit c₃ d₃)
      (h₄ : HexDigit c₄ d₄) (he : e.toNat = 256 * d₂ + 16 * d₃ + d₄) :
      SignedCode ['x', '+', c₂, c₃, c₄] [e]

/-- An item of a literal in quotes `q`, where `E` says what the escapes are. -/
inductive Item (E : List Char → List Char → Prop) (q : Char) : List Char → List Char → Prop
  | plain {c : Char} (hq : c ≠ q) (hs : c ≠ '\\') (hr : c ≠ '\r') (hn : c ≠ '\n') : Item E q [c] [c]
  | escape {w t : List Char} (h : E w t) : Item E q ('\\' :: w) t

/-- Items one behind the other, and what they stand for together. -/
inductive Items (E : List Char → List Char → Prop) (q : Char) : List Char → List Char → Prop
  | nil : Items E q [] []
  | cons {w t ws ts : List Char} (h : Item E q w t) (hs : Items E q ws ts) :
      Items E q (w ++ ws) (t ++ ts)

/-- The text `s` starts with items that stand for `t`, and behind their closing quote is `r`. -/
def Closes (E : List Char → List Char → Prop) (q : Char) (s t r : List Char) : Prop :=
  ∃ body, s = body ++ q :: r ∧ Items E q body t

variable {q : Char} {s t r w : List Char}

/-! ## Escapes -/

theorem escape?_eq_some_iff {c e : Char} : escape? c = some e ↔ (c, e) ∈ shortEscapes := by
  constructor
  · intro h
    unfold escape? at h
    split at h <;> cases h <;> decide
  · intro h
    simp only [shortEscapes, List.mem_cons, Prod.mk.injEq, List.not_mem_nil, or_false] at h
    rcases h with ⟨rfl, rfl⟩ | ⟨rfl, rfl⟩ | ⟨rfl, rfl⟩ | ⟨rfl, rfl⟩ | ⟨rfl, rfl⟩ | ⟨rfl, rfl⟩ |
      ⟨rfl, rfl⟩ | ⟨rfl, rfl⟩ | ⟨rfl, rfl⟩ <;> rfl

theorem digit?_eq_some_iff {c : Char} {d : Nat} : Number.digit? 16 c = some d ↔ HexDigit c d := by
  constructor
  · intro h
    have hsmall : ∀ n < 103, ∀ d ∈ Number.digit? 16 (Char.ofNat n), HexDigit (Char.ofNat n) d := by
      decide
    have hc : c.toNat < 103 := by
      by_contra hge
      have hle : ∀ b : Char, b.toNat < 103 → ¬ c ≤ b := fun b hb hcb =>
        hge (Nat.lt_of_le_of_lt (UInt32.le_iff_toNat_le.mp hcb) hb)
      simp [Number.digit?, hle] at h
    have hdigit := hsmall c.toNat hc d (by rwa [Char.ofNat_toNat])
    rwa [Char.ofNat_toNat] at hdigit
  · have hlower : ∀ d < 16, ("0123456789abcdef".toList[d]?).bind (Number.digit? 16) = some d := by
      decide
    have hupper : ∀ d < 16, ("0123456789ABCDEF".toList[d]?).bind (Number.digit? 16) = some d := by
      decide
    rintro (h | h)
    · rw [← hlower d (List.getElem?_eq_some_iff.mp h).1, h, Option.bind_some]
    · rw [← hupper d (List.getElem?_eq_some_iff.mp h).1, h, Option.bind_some]

theorem scalar?_eq_some_iff {n : Nat} {e : Char} : scalar? n = some e ↔ e.toNat = n := by
  unfold scalar?
  constructor
  · intro h
    split at h
    · rename_i hn
      rw [← Option.some.inj h, Char.ofNat, dif_pos hn]
      rfl
    · cases h
  · rintro rfl
    rw [Char.ofNat_toNat, if_pos]
    exact e.valid

theorem ofDigitsFrom_cons_iff {c : Char} {n v : Nat} :
    Number.ofDigitsFrom 16 n (c :: s) = some v ↔
      ∃ d, HexDigit c d ∧ Number.ofDigitsFrom 16 (16 * n + d) s = some v := by
  simp only [Number.ofDigitsFrom, Option.bind_eq_some_iff, digit?_eq_some_iff]

theorem ofDigitsFrom_nil_iff {n v : Nat} : Number.ofDigitsFrom 16 n [] = some v ↔ n = v :=
  Option.some_inj

theorem not_hexDigit_plus {d : Nat} : ¬ HexDigit '+' d := by
  rw [← digit?_eq_some_iff]
  intro h
  cases h

theorem escape_code_iff {c₁ c₂ c₃ c₄ e : Char} :
    Escape ['x', c₁, c₂, c₃, c₄] [e] ↔
      Number.ofDigitsFrom 16 0 [c₁, c₂, c₃, c₄] = some e.toNat := by
  constructor
  · rintro (_ | _ | ⟨h₁, h₂, h₃, h₄, he⟩)
    simp only [ofDigitsFrom_cons_iff, ofDigitsFrom_nil_iff]
    exact ⟨_, h₁, _, h₂, _, h₃, _, h₄, by omega⟩
  · intro h
    simp only [ofDigitsFrom_cons_iff, ofDigitsFrom_nil_iff] at h
    obtain ⟨d₁, h₁, d₂, h₂, d₃, h₃, d₄, h₄, he⟩ := h
    exact .code h₁ h₂ h₃ h₄ (by omega)

theorem signedCode_iff {c₂ c₃ c₄ e : Char} :
    SignedCode ['x', '+', c₂, c₃, c₄] [e] ↔
      Number.ofDigitsFrom 16 0 [c₂, c₃, c₄] = some e.toNat := by
  constructor
  · rintro ⟨h₂, h₃, h₄, he⟩
    simp only [ofDigitsFrom_cons_iff, ofDigitsFrom_nil_iff]
    exact ⟨_, h₂, _, h₃, _, h₄, by omega⟩
  · intro h
    simp only [ofDigitsFrom_cons_iff, ofDigitsFrom_nil_iff] at h
    obtain ⟨d₂, h₂, d₃, h₃, d₄, h₄, he⟩ := h
    exact .mk h₂ h₃ h₄ (by omega)

/-- What a code of four characters names: four digits, or a plus sign and three. -/
theorem code?_eq_some_iff {c₁ c₂ c₃ c₄ e : Char} :
    code? [c₁, c₂, c₃, c₄] = some e ↔
      Escape ['x', c₁, c₂, c₃, c₄] [e] ∨ SignedCode ['x', c₁, c₂, c₃, c₄] [e] := by
  have hbind : ∀ n : Option Nat, n.bind scalar? = some e ↔ n = some e.toNat := by
    intro n
    simp [Option.bind_eq_some_iff, scalar?_eq_some_iff]
  have hlen : [c₁, c₂, c₃, c₄].length = 4 := rfl
  rw [code?, if_pos hlen, hbind]
  by_cases hplus : c₁ = '+'
  · subst hplus
    have hnone : ¬ Escape ['x', '+', c₂, c₃, c₄] [e] := by
      rintro (_ | _ | ⟨h₁, -, -, -, -⟩)
      exact not_hexDigit_plus h₁
    rw [or_iff_right hnone, signedCode_iff]
    rfl
  · have hnone : ¬ SignedCode ['x', c₁, c₂, c₃, c₄] [e] := by
      rintro ⟨⟩
      exact hplus rfl
    rw [or_iff_left hnone, escape_code_iff, hexNumber?]
    · rfl
    · rintro digits ⟨⟩
      exact hplus rfl

theorem length_of_code? {e : Char} (h : code? w = some e) : w.length = 4 := by
  rw [code?, Option.ite_none_right_eq_some] at h
  exact h.1

def Readable (w t : List Char) : Prop := Escape w t ∨ SignedCode w t

/-- Behind a backslash an escape is read, or a code with a plus sign, and nothing else. -/
theorem readEscape_iff : readEscape s = .ok (t, r) ↔ ∃ w, s = w ++ r ∧ Readable w t := by
  constructor
  · intro h
    unfold readEscape at h
    split at h
    · cases h
    · rename_i c s
      split at h
      · rename_i e he
        cases h
        exact ⟨[c], rfl, .inl (.short (escape?_eq_some_iff.mp he))⟩
      · split at h
        · rename_i hc
          subst hc
          split at h <;> cases h
          exact ⟨['r', '\\', 'n'], rfl, .inl .lineBreak⟩
        · split at h
          · rename_i hc
            subst hc
            split at h <;> cases h
            rename_i e he
            obtain ⟨c₁, c₂, c₃, c₄, htake⟩ := List.length_eq_four.mp (length_of_code? he)
            rw [htake, code?_eq_some_iff] at he
            have hsplit := List.take_append_drop 4 s
            rw [htake] at hsplit
            exact ⟨['x', c₁, c₂, c₃, c₄], congrArg (List.cons 'x') hsplit.symm, he⟩
          · cases h
  · rintro ⟨w, rfl, h | h⟩
    · cases h with
      | short h =>
        simp only [List.singleton_append, readEscape, escape?_eq_some_iff.mpr h]
      | lineBreak => rfl
      | code h₁ h₂ h₃ h₄ he =>
        have hcode := code?_eq_some_iff.mpr (.inl (.code h₁ h₂ h₃ h₄ he))
        simp [readEscape, escape?, hcode]
    · obtain ⟨h₂, h₃, h₄, he⟩ := h
      have hcode := code?_eq_some_iff.mpr (.inr (.mk h₂ h₃ h₄ he))
      simp [readEscape, escape?, hcode]

/-! ## Literals -/

theorem isBreak_eq_false_iff {c : Char} : isBreak c = false ↔ c ≠ '\r' ∧ c ≠ '\n' := by
  simp [isBreak]

theorem readQuoted_iff (hq : q ≠ '\\') :
    readQuoted q s = .ok (t, r) ↔ Closes Readable q s t r := by
  constructor
  · intro h
    fun_induction readQuoted q s generalizing t with
    | case1 => cases h
    | case2 =>
      cases h
      exact ⟨[], rfl, .nil⟩
    | case3 => cases h
    | case4 s u rest he hne ih =>
      obtain ⟨v, hv, rfl⟩ := Reading.prepend_eq_ok h
      obtain ⟨w, rfl, hw⟩ := readEscape_iff.mp he
      obtain ⟨body, rfl, hbody⟩ := ih hv
      exact ⟨'\\' :: w ++ body, by simp, .cons (.escape hw) hbody⟩
    | case5 => cases h
    | case6 c s hne hs hb ih =>
      obtain ⟨v, hv, rfl⟩ := Reading.prepend_eq_ok h
      obtain ⟨body, rfl, hbody⟩ := ih hv
      obtain ⟨hr, hn⟩ := isBreak_eq_false_iff.mp (Bool.not_eq_true _ ▸ hb)
      exact ⟨[c] ++ body, rfl, .cons (.plain hne hs hr hn) hbody⟩
  · rintro ⟨body, rfl, hbody⟩
    induction hbody with
    | nil =>
      rw [List.nil_append, readQuoted, if_pos rfl]
    | cons hitem _ ih =>
      rw [List.append_assoc]
      cases hitem with
      | plain hne hs hr hn =>
        rw [List.singleton_append, readQuoted_cons hne hs (isBreak_eq_false_iff.mpr ⟨hr, hn⟩), ih]
        rfl
      | escape h =>
        rw [List.cons_append, readQuoted_escape hq (readEscape_iff.mpr ⟨_, rfl, h⟩), ih]
        rfl

theorem Items.mono {E F : List Char → List Char → Prop} {body : List Char}
    (h : Items E q body t) (hEF : ∀ w u, '\\' :: w <:+: body → E w u → F w u) :
    Items F q body t := by
  induction h with
  | nil => exact .nil
  | cons hitem _ ih =>
    refine .cons ?_ (ih fun w u hw => hEF w u (hw.trans (List.suffix_append _ _).isInfix))
    cases hitem with
    | plain hne hs hr hn => exact .plain hne hs hr hn
    | escape h => exact .escape (hEF _ _ (List.prefix_append _ _).isInfix h)

theorem not_closes_plus (hq : q ≠ '\\') : ¬ Closes Escape q ('\\' :: 'x' :: '+' :: s) t r := by
  rintro ⟨body, hbody, hitems⟩
  cases hitems with
  | nil => exact hq (List.cons.inj hbody).1.symm
  | cons hitem _ =>
    cases hitem with
    | plain _ hs => exact hs (List.cons.inj hbody).1.symm
    | escape h =>
      simp only [List.cons_append, List.cons.injEq, true_and] at hbody
      cases h with
      | short h =>
        obtain ⟨rfl, -⟩ := List.cons.inj hbody
        simp [shortEscapes] at h
      | lineBreak => simp at hbody
      | code h₁ =>
        simp only [List.cons_append, List.cons.injEq] at hbody
        rw [← hbody.2.1] at h₁
        exact not_hexDigit_plus h₁

/-- A literal is read exactly if it is a row of items up to its closing quote, where a code may
have a plus sign in place of its first digit; the rest of the text starts behind that quote. Where
no plus sign stands in such a place, this is the grammar. -/
theorem readQuoted_grammar (hq : q = '"' ∨ q = '\'') (s t r : List Char) :
    (readQuoted q s = .ok (t, r) ↔ Closes Readable q s t r) ∧
      (¬ ['\\', 'x', '+'] <:+: s →
        (readQuoted q s = .ok (t, r) ↔ Closes Escape q s t r)) := by
  have hne : q ≠ '\\' := by rcases hq with rfl | rfl <;> decide
  refine ⟨readQuoted_iff hne, fun hplus => (readQuoted_iff hne).trans ?_⟩
  constructor
  · rintro ⟨body, rfl, hbody⟩
    refine ⟨body, rfl, hbody.mono fun w u hw h => h.resolve_right ?_⟩
    rintro ⟨⟩
    refine hplus (List.IsInfix.trans ?_ (hw.trans (List.prefix_append _ _).isInfix))
    exact (List.prefix_append ['\\', 'x', '+'] _).isInfix
  · rintro ⟨body, rfl, hbody⟩
    exact ⟨body, rfl, hbody.mono fun w u _ h => .inl h⟩

/-- An escaped line break and a code, and a code that is read though the grammar does not have
it. -/
theorem readQuoted_grammar_plus :
    readQuoted '\'' "a\\r\\n\\x00e9' b".toList = .ok ("a\r\né".toList, " b".toList) ∧
      Closes Escape '\'' "a\\r\\n\\x00e9' b".toList "a\r\né".toList " b".toList ∧
      readQuoted '"' "\\x+041\" b".toList = .ok (['A'], " b".toList) ∧
      ¬ Closes Escape '"' "\\x+041\" b".toList ['A'] " b".toList := by
  have hread : readQuoted '\'' "a\\r\\n\\x00e9' b".toList = .ok ("a\r\né".toList, " b".toList) := by
    decide +kernel
  have hplain : ¬ ['\\', 'x', '+'] <:+: "a\\r\\n\\x00e9' b".toList := by
    decide +kernel
  exact ⟨hread, ((readQuoted_grammar (.inr rfl) _ _ _).2 hplain).mp hread, by decide +kernel,
    not_closes_plus (by decide)⟩

end Outline.Text

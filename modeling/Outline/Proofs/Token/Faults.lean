import Outline.Document.Builtin
import Outline.Proofs.Token.Position

/-!
# Faults of a text

What stops the reading of a text is a fault of its characters, to be seen where the text is left.
Such a fault never speaks of the tree that the lines would make: that is left to whoever builds the
tree.
-/

namespace Outline

/-- The fault is one of the characters of a text. -/
def SyntaxFault.Lexical : SyntaxFault → Prop
  | commentWithChildren | levelJump _ _ | noOwner | leavesDocument | invalidUtf8 => False
  | _ => True

theorem SyntaxFault.Shown.lexical {fault : SyntaxFault} {front rest : List Char}
    (h : fault.Shown front rest) : fault.Lexical := by
  cases fault with
  | commentWithChildren | levelJump | noOwner | leavesDocument | invalidUtf8 => exact h
  | _ => trivial

def Error.Lexical (e : Error) : Prop :=
  ∀ fault position context, e = .syntaxError fault position context → fault.Lexical

theorem Error.lexical_invalidValue (tag raw : String) (reason : Reason) :
    (Error.invalidValue tag raw reason).Lexical := fun _ _ _ h => by cases h

/-! ## Steps that fail in one way only -/

def FailsWith {ε α : Type} (P : ε → Prop) (x : Except ε α) : Prop := ∀ e, x = .error e → P e

namespace FailsWith

variable {ε α β : Type} {P : ε → Prop}

theorem ok (a : α) : FailsWith P (.ok a) := fun _ h => by cases h

theorem error {e : ε} (he : P e) : FailsWith P (.error e : Except ε α) :=
  fun _ h => Except.error.inj h ▸ he

theorem bind {x : Except ε α} {k : α → Except ε β} (hx : FailsWith P x)
    (hk : ∀ a, FailsWith P (k a)) : FailsWith P (x >>= k) := by
  cases x with
  | ok a => exact hk a
  | error e => exact error (hx e rfl)

theorem map {x : Except ε α} (hx : FailsWith P x) (k : α → β) : FailsWith P (x.map k) := by
  cases x with
  | ok a => exact ok _
  | error e => exact error (hx e rfl)

theorem mapM {k : α → Except ε β} (hk : ∀ a, FailsWith P (k a)) (as : List α) :
    FailsWith P (as.mapM k) := by
  induction as with
  | nil => exact ok _
  | cons a as ih =>
    rw [List.mapM_cons]
    exact (hk a).bind fun _ => ih.bind fun _ => ok _

end FailsWith

namespace Text

def Halt.Lexical (h : Halt) : Prop := h.fault.Lexical

theorem lexical_of_takes {α : Type} {s : List Char} {P : α → Prop} {x : Except Halt α}
    (hx : Takes s P x) : FailsWith Halt.Lexical x := by
  intro h he
  obtain ⟨front, -, hshown⟩ := hx.of_error he
  exact hshown.lexical

end Text

namespace Token

open Text

theorem lexical_haltError {source : List Char} {h : Halt} (hf : h.Lexical) :
    (haltError source h).Lexical := by
  rintro fault position context he
  cases he
  exact hf

end Token

theorem lexical_tokenize (source : String) : FailsWith Error.Lexical (tokenize source) := by
  rw [tokenize, Token.tokenizeChars]
  split
  · exact .ok _
  · rename_i halt hscan
    have hlexical : halt.Lexical := Text.lexical_of_takes (Token.takes_scan _) halt hscan
    exact .error (Token.lexical_haltError hlexical)

/-! ## Scalars -/

theorem Step.lexical_parse (segment : List Char) : FailsWith Error.Lexical (parse segment) := by
  have hinvalid : (Error.invalidIterator (String.ofList segment)).Lexical :=
    fun _ _ _ h => by cases h
  unfold parse
  split
  · exact .ok _
  · unfold parseParametrized
    split
    · exact .ok _
    · dsimp only
      split
      · exact .ok _
      · exact .error hinvalid
    · exact .ok _
    · dsimp only
      split
      · exact .ok _
      · exact .error hinvalid
    · exact .ok _
    · split <;> exact .ok _

namespace Expression

theorem lexical_segmentsFrom (current s : List Char) :
    FailsWith Error.Lexical (segmentsFrom current s) := by
  fun_induction segmentsFrom current s with
  | case1 => exact .ok _
  | case2 _ _ ih => exact ih.map _
  | case3 => assumption
  | case4 =>
    rename_i e he
    have hlexical : e.Lexical := Text.lexical_of_takes (Text.leaves_readQuoted _ _) e he
    exact .error (Token.lexical_haltError hlexical)
  | case5 => assumption

theorem lexical_parse (source : String) : FailsWith Error.Lexical (parse source) :=
  (lexical_segmentsFrom [] source.toList).bind fun parts =>
    (FailsWith.mapM Step.lexical_parse parts).bind fun _ => .ok _

end Expression

namespace Registry

theorem lexical_refused {α : Type} (tag raw : String) (x : Except Reason α) :
    FailsWith Error.Lexical (refused tag raw x) := by
  cases x with
  | ok a => exact .ok _
  | error reason => exact .error (Error.lexical_invalidValue tag raw reason)

theorem lexical_readScalar (kind : Value.Kind) (raw : String) :
    FailsWith Error.Lexical (readScalar kind raw) := by
  cases kind with
  | string | bool => exact .ok _
  | integer | decimal | double | float | bytes | guid => exact (lexical_refused _ _ _).map _
  | char =>
    simp only [readScalar]
    split
    · exact .ok _
    · exact .error (Error.lexical_invalidValue _ _ _)
  | date =>
    refine FailsWith.map ?_ _
    unfold Instant.parse
    split
    · exact .ok _
    · exact .error (Error.lexical_invalidValue _ _ _)
  | time =>
    refine (lexical_refused _ _ _).bind fun ticks => ?_
    split
    · exact .ok _
    · exact .error (Error.lexical_invalidValue _ _ _)
  | expression => exact (Expression.lexical_parse raw).map _
  | node => exact .error fun _ _ _ h => by cases h

end Registry

end Outline

/-!
# Places in a text

A place is named by the text in front of it. Lines and columns count from one; a line feed
starts a new line, and a column counts characters.
-/

namespace Outline

structure Position where
  line : Nat
  column : Nat
  deriving DecidableEq, Repr, Inhabited

namespace Position

/-- The place right after the text `consumed`. -/
def after (consumed : List Char) : Position where
  line := consumed.count '\n' + 1
  column := (consumed.reverse.takeWhile (· ≠ '\n')).length + 1

@[simp] theorem after_nil : after [] = ⟨1, 1⟩ := rfl

@[simp] theorem after_concat_lineFeed (s : List Char) :
    after (s ++ ['\n']) = ⟨s.count '\n' + 2, 1⟩ := by
  simp [after]

def describe (p : Position) : String :=
  "line " ++ toString p.line ++ ", column " ++ toString p.column

end Position

namespace Text

/-- How many characters of the text in front of a fault its report quotes. -/
def contextLength : Nat := 40

/-- The tail of the text in front of a fault. -/
def context (consumed : List Char) : List Char :=
  consumed.drop (consumed.length - contextLength)

theorem context_suffix (consumed : List Char) : context consumed <:+ consumed :=
  List.drop_suffix _ _

theorem length_context (consumed : List Char) :
    (context consumed).length = min contextLength consumed.length := by
  simp only [context, List.length_drop]
  omega

/-- The part of `source` in front of its suffix `rest`. -/
def before (source rest : List Char) : List Char := source.take (source.length - rest.length)

@[simp] theorem before_append (s t : List Char) : before (s ++ t) t = s := by
  simp [before]

end Text
end Outline

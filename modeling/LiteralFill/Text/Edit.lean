import LiteralFill.Text.Bytes

/-!
Replacing spans of a text. The edits are applied from the last position to the first, so that a span
still to be replaced keeps its place.
-/

namespace LiteralFill

/-- A span and the text to stand in its place. -/
structure TextEdit where
  span : Span
  text : String
  deriving DecidableEq, Repr, Inhabited

/-- A text with one span replaced. -/
def replaceSpan (text : List Char) (edit : TextEdit) : List Char :=
  takeBytes edit.span.start text ++ edit.text.toList ++ dropBytes edit.span.stop text

/-- A text with every edit applied, later positions first. -/
def applyEdits (text : List Char) (edits : List TextEdit) : List Char :=
  (edits.mergeSort fun a b => b.span.start ≤ a.span.start).foldl replaceSpan text

end LiteralFill

import LiteralFill.Text.Bytes

/-!
The lines of a text. Lines are numbered from zero and end with a newline; positions may lie past the
end of the text, where they belong to its last line.
-/

namespace LiteralFill

/-- The positions just after each newline, when the text begins at `offset`. -/
def startsAfterNewlines (offset : Nat) : List Char → List Nat
  | [] => []
  | c :: cs =>
    if c = '\n' then (offset + 1) :: startsAfterNewlines (offset + 1) cs
    else startsAfterNewlines (offset + c.utf8Size) cs

/-- The position where each line starts, in order. -/
def lineStarts (text : List Char) : List Nat := 0 :: startsAfterNewlines 0 text

/-- The number of lines. -/
def lineCount (text : List Char) : Nat := (lineStarts text).length

/-- The line of a position: the last one that starts at it or before. -/
def lineOf (text : List Char) (offset : Nat) : Nat :=
  ((lineStarts text).takeWhile (· ≤ offset)).length - 1

/-- The position where a line starts; past the last line, where the last line starts. -/
def lineStart (text : List Char) (line : Nat) : Nat :=
  let starts := lineStarts text
  starts.getD (min line (starts.length - 1)) 0

/-- The spaces and tabs at the start of the line of a position. -/
def indentAt (text : List Char) (offset : Nat) : List Char :=
  (dropBytes (lineStart text (lineOf text offset)) text).takeWhile fun c => c == ' ' || c == '\t'

end LiteralFill

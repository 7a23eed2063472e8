import LiteralFill.Syntax.Lexeme
import LiteralFill.Text.Blank

/-!
The comments in the text between two tokens.
-/

namespace LiteralFill

/-- A comment and its position in the text it was found in. -/
structure Comment where
  offset : Nat
  text : String
  deriving DecidableEq, Repr, Inhabited

/-- The length of the comment that a text starts with: to the end of the line, through the first
`*/`, or to the end of the text. -/
def commentLength (cs : List Char) : Option Nat :=
  match cs with
  | '/' :: '/' :: _ => some (runLength (· != '\n') cs)
  | '/' :: '*' :: _ => some ((throughClose cs).getD cs.length)
  | _ => none

/-- The comments of a text that begins at `offset`; `skip` characters belong to the comment before. -/
def commentsFrom (offset : Nat) : Nat → List Char → List Comment
  | _, [] => []
  | skip + 1, c :: cs => commentsFrom (offset + c.utf8Size) skip cs
  | 0, c :: cs =>
    match commentLength (c :: cs) with
    | some length =>
      ⟨offset, String.ofList (trimEnd ((c :: cs).take length))⟩ ::
        commentsFrom (offset + c.utf8Size) (length - 1) cs
    | none => commentsFrom (offset + c.utf8Size) 0 cs

/-- The comments of a text, each without white space after it. -/
def commentsIn (text : List Char) : List Comment := commentsFrom 0 0 text

/-- The texts of the comments of a span. -/
def commentTexts (text : List Char) (s : Span) : List String :=
  (commentsIn (slice text s)).map (·.text)

end LiteralFill

/-!
The lines of a settings document: what may stand in them besides keys and values. A line holds no control
character but the tab, and ends with a newline, perhaps after a carriage return.
-/

namespace LiteralFill.Toml

/-- Reads something at the start of a text; what follows is left. -/
abbrev Reading (α : Type) : Type := List Char → Option (α × List Char)

/-- The white space inside a line. -/
def isSpace (c : Char) : Bool := c == ' ' || c == '\t'

/-- A text without the spaces before it. -/
def skipSpaces (cs : List Char) : List Char := cs.dropWhile isSpace

/-- A character that may stand in a line. -/
def isPrintable (c : Char) : Bool := c == '\t' || (' ' ≤ c && c != '\x7f')

/-- What follows a newline. -/
def afterNewline : List Char → Option (List Char)
  | '\n' :: cs => some cs
  | '\r' :: '\n' :: cs => some cs
  | _ => none

/-- A text without the comment before it. -/
def skipComment : List Char → List Char
  | '#' :: cs => cs.dropWhile isPrintable
  | cs => cs

/-- What follows the rest of a line in which nothing but a comment is left. -/
def afterLine (cs : List Char) : Option (List Char) :=
  match skipComment (skipSpaces cs) with
  | [] => some []
  | rest => afterNewline rest

/-- A text without the white space, newlines and comments before it. -/
def skipLines (inComment : Bool) : List Char → List Char
  | [] => []
  | '\r' :: '\n' :: cs => skipLines false cs
  | c :: cs =>
    if c = '\n' then skipLines false cs
    else if inComment then if isPrintable c then skipLines true cs else c :: cs
    else if isSpace c then skipLines false cs
    else if c = '#' then skipLines true cs
    else c :: cs

end LiteralFill.Toml

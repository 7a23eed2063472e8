import LiteralFill.Text.Blank

/-!
The file that names a module: the path stands on the first line that begins with the word `module`.
-/

namespace LiteralFill

/-- The lines of a text, without the characters that end them. -/
def linesOf : List Char → List (List Char)
  | [] => []
  | '\r' :: '\n' :: cs => [] :: linesOf cs
  | c :: cs =>
    if c = '\n' then [] :: linesOf cs
    else
      match linesOf cs with
      | line :: rest => (c :: line) :: rest
      | [] => [[c]]

/-- A quote that a module path may stand in. -/
def isPathQuote (c : Char) : Bool := c == '\x22' || c == '\x60'

/-- A text without the quotes around it, however many there are. -/
def trimQuotes (cs : List Char) : List Char :=
  ((cs.dropWhile isPathQuote).reverse.dropWhile isPathQuote).reverse

/-- The module path of a line. -/
def modulePathOfLine (line : List Char) : Option String :=
  let word := "module".toList
  let line := trim line
  if word.isPrefixOf line then
    let rest := line.drop word.length
    if (rest.head?.map isBlank).getD false then
      let path := trimQuotes (trim rest)
      if path.isEmpty then none else some (String.ofList path)
    else none
  else none

/-- The module path of a file. -/
def modulePath (text : String) : Option String := (linesOf text.toList).findSome? modulePathOfLine

end LiteralFill

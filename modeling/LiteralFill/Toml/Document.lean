import LiteralFill.Toml.Reader

/-!
Documents. A line is empty, gives a value to a key, or is the header of a table or of an item of a list of
tables; keys belong to the table of the last header before them.
-/

namespace LiteralFill.Toml

/-- A line that says something. -/
inductive Statement
  | pair (path : List String) (value : Value)
  | header (path : List String)
  | itemHeader (path : List String)
  deriving Repr, Inhabited

/-- Reads the key of a header and the brackets that close it. -/
def readHeader (close : List Char) : Reading (List String) := fun cs => do
  let (path, cs) ← readKey cs
  if close.isPrefixOf cs then some (path, cs.drop close.length) else none

/-- Reads a statement, up to the rest of its line. -/
def readStatement : Reading Statement
  | '[' :: '[' :: cs =>
    (readHeader [']', ']'] cs).map fun (path, rest) => (.itemHeader path, rest)
  | '[' :: cs => (readHeader [']'] cs).map fun (path, rest) => (.header path, rest)
  | cs => (readPair readValue cs).map fun ((path, v), rest) => (.pair path v, rest)

/-- The line has no statement. -/
def isEmptyLine (cs : List Char) : Bool :=
  match skipSpaces cs with
  | [] => true
  | c :: _ => c == '#' || c == '\n' || c == '\r'

/-- The statements of a text, with a bound on the number of lines. -/
def readStatements : Nat → List Char → Option (List Statement)
  | _, [] => some []
  | 0, _ => none
  | bound + 1, cs =>
    if isEmptyLine cs then do
      let rest ← afterLine cs
      readStatements bound rest
    else do
      let (s, rest) ← readStatement (skipSpaces cs)
      let rest ← afterLine rest
      let others ← readStatements bound rest
      some (s :: others)

/-- The document with one more statement. The path leads to the table that keys belong to. -/
def addStatement : Table Node × List String → Statement → Option (Table Node × List String)
  | (t, current), .pair path v =>
    (Table.descend false (Table.addValue path v) current t).map fun t => (t, current)
  | (t, _), .header path => (t.declare path).map fun t => (t, path)
  | (t, _), .itemHeader path => (t.declareItem path).map fun t => (t, path)

/-- A text without the byte order mark before it. -/
def skipByteOrderMark : List Char → List Char
  | c :: cs => if c = '\uFEFF' then cs else c :: cs
  | [] => []

/-- The entries of a document. -/
def readDocument (text : String) : Option (List (String × Value)) := do
  let cs := skipByteOrderMark text.toList
  let statements ← readStatements cs.length cs
  let (t, _) ← statements.foldlM addStatement (Table.empty .declared, [])
  some t.entries

end LiteralFill.Toml

import LiteralFill.Toml.Date
import LiteralFill.Toml.Number
import LiteralFill.Toml.Quoted
import LiteralFill.Toml.Table

/-!
Reading keys and values. Arrays may run over several lines and end with a comma, tables in braces may not.
Values may stand inside one another up to a bound, and a key has a bounded number of parts.
-/

namespace LiteralFill.Toml

/-- How many arrays and tables in braces may stand inside one another, and how many parts a key may
have. -/
def nestingLimit : Nat := 79

/-! ## Keys -/

/-- A character of a key without quotes. -/
def isBareKeyChar (c : Char) : Bool := c.isAlphanum || c == '-' || c == '_'

/-- Reads one part of a key. -/
def readKeyPart : Reading String := fun cs =>
  match readLineString cs with
  | some found => some found
  | none =>
    let name := cs.takeWhile isBareKeyChar
    if name.isEmpty then none else some (String.ofList name, cs.dropWhile isBareKeyChar)

/-- Reads at most `count` parts of a key with points between them, and the spaces around each. -/
def readKeyParts : Nat → Reading (List String)
  | 0, _ => none
  | count + 1, cs => do
    let (part, cs) ← readKeyPart (skipSpaces cs)
    match skipSpaces cs with
    | '.' :: cs =>
      let (parts, cs) ← readKeyParts count cs
      some (part :: parts, cs)
    | cs => some ([part], cs)

/-- Reads a key. -/
def readKey : Reading (List String) := readKeyParts nestingLimit

/-- Reads a key, the equals sign after it, and a value. -/
def readPair (value : Reading Value) : Reading (List String × Value) := fun cs => do
  let (key, cs) ← readKey cs
  let (_, cs) ← readMark '=' cs
  let (v, cs) ← value (skipSpaces cs)
  some ((key, v), cs)

/-! ## Values -/

/-- Reads the items of an array after the opening bracket, with a bound on their number. -/
def readItems (item : Reading Value) : Nat → Reading (List Value)
  | 0, _ => none
  | bound + 1, cs =>
    match skipLines false cs with
    | ']' :: cs => some ([], cs)
    | cs => do
      let (v, cs) ← item cs
      match skipLines false cs with
      | ',' :: cs =>
        let (vs, cs) ← readItems item bound cs
        some (v :: vs, cs)
      | ']' :: cs => some ([v], cs)
      | _ => none

/-- Reads the pairs of a table after the opening brace or a comma, with a bound on their number. -/
def readPairs (value : Reading Value) : Nat → Reading (List (List String × Value))
  | 0, _ => none
  | bound + 1, cs => do
    let (pair, cs) ← readPair value cs
    match skipSpaces cs with
    | ',' :: cs =>
      let (pairs, cs) ← readPairs value bound cs
      some (pair :: pairs, cs)
    | '\x7d' :: cs => some ([pair], cs)
    | _ => none

/-- Reads a table after the opening brace. -/
def readInlineTable (value : Reading Value) : Reading Value := fun cs =>
  match skipSpaces cs with
  | '\x7d' :: cs => some (.table [], cs)
  | cs => do
    let (pairs, cs) ← readPairs value cs.length cs
    let entries ← entriesOfPairs pairs
    some (.table entries, cs)

/-- Reads a date or a number. -/
def readQuantity : Reading Value := fun cs =>
  match readMoment cs with
  | some (text, rest) => some (.date text, rest)
  | none =>
    match readNumber cs with
    | some (.integer n, rest) => some (.integer n, rest)
    | some (.float, rest) => some (.float, rest)
    | none => none

/-- Reads a value that holds no other. -/
def readScalar : Reading Value
  | 't' :: 'r' :: 'u' :: 'e' :: cs => some (.boolean true, cs)
  | 'f' :: 'a' :: 'l' :: 's' :: 'e' :: cs => some (.boolean false, cs)
  | cs =>
    match readString cs with
    | some (text, rest) => some (.string text, rest)
    | none => readQuantity cs

/-- Reads a value with at most `depth` arrays and tables in braces inside one another. -/
def readValueWithin : Nat → Reading Value
  | depth + 1, '[' :: cs =>
    (readItems (readValueWithin depth) (cs.length + 1) cs).map fun (items, rest) =>
      (.array items, rest)
  | depth + 1, '\x7b' :: cs => readInlineTable (readValueWithin depth) cs
  | _, cs => readScalar cs

/-- Reads a value. -/
def readValue : Reading Value := readValueWithin nestingLimit

end LiteralFill.Toml

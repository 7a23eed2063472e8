import LiteralFill.Syntax.Integer
import LiteralFill.Toml.Line

/-!
Quoted strings. Between double quotes a backslash begins an escape; between single quotes every character
stands for itself. A string between three quotes may hold newlines, and one or two quotes in a row; a
newline right after the opening quotes does not count, nor does the white space after a backslash that
ends a line.
-/

namespace LiteralFill.Toml

/-- What follows the closing quotes at the start of a text, and the quotes before them that still belong
to the string. -/
def closing (multiline : Bool) (quote : Char) (cs : List Char) : Option (List Char × List Char) :=
  let count := (cs.takeWhile (· == quote)).length
  if multiline then
    if count < 3 then none
    else
      let kept := min (count - 3) 2
      some (List.replicate kept quote, cs.drop (kept + 3))
  else if count = 0 then none
  else some ([], cs.drop 1)

/-- The carriage return of a newline. -/
def beginsNewline (c : Char) (cs : List Char) : Bool := c == '\r' && cs.head? == some '\n'

/-- The character of a short escape. -/
def shortEscape : Char → Option Char
  | 'b' => some '\x08'
  | 't' => some '\t'
  | 'n' => some '\n'
  | 'f' => some '\x0c'
  | 'r' => some '\r'
  | '\x22' => some '\x22'
  | '\\' => some '\\'
  | _ => none

/-- The value of a hexadecimal digit. -/
def hexValue (c : Char) : Option Nat := (digitValue c).filter (· < 16)

/-- The character of a code point. -/
def charOf? (code : Nat) : Option Char := if code.isValidChar then some (Char.ofNat code) else none

/-- What stands before the next character: nothing special, a backslash that ended a line with the white
space after it, a backslash, a backslash with spaces after it, or some digits of a code point. -/
inductive Pending
  | nothing
  | lineEnd
  | backslash
  | blankBackslash
  | code (left value : Nat)
  deriving DecidableEq, Repr

/-- What to do with the next character: keep one, go on without one, close the string, or refuse it. -/
inductive Step
  | keep (c : Char)
  | goOn (pending : Pending)
  | close (text rest : List Char)
  | refuse
  deriving DecidableEq, Repr

/-- A character that stands for itself; newlines do so only in strings of several lines. -/
def textStep (multiline : Bool) (c : Char) (cs : List Char) : Step :=
  if isPrintable c then .keep c
  else if multiline && c == '\n' then .keep c
  else if multiline && beginsNewline c cs then .goOn .nothing
  else .refuse

/-- The next character between double quotes, where no escape has begun. -/
def plainStep (multiline : Bool) (c : Char) (cs : List Char) : Step :=
  match closing multiline '\x22' (c :: cs) with
  | some (text, rest) => .close text rest
  | none => if c = '\\' then .goOn .backslash else textStep multiline c cs

/-- The next character between double quotes. -/
def basicStep (multiline : Bool) : Pending → Char → List Char → Step
  | .nothing, c, cs => plainStep multiline c cs
  | .lineEnd, c, cs =>
    if isSpace c || c = '\n' || beginsNewline c cs then .goOn .lineEnd
    else plainStep multiline c cs
  | .backslash, c, cs =>
    match shortEscape c with
    | some char => .keep char
    | none =>
      if c = 'u' then .goOn (.code 4 0)
      else if c = 'U' then .goOn (.code 8 0)
      else if !multiline then .refuse
      else if c = '\n' then .goOn .lineEnd
      else if isSpace c || beginsNewline c cs then .goOn .blankBackslash
      else .refuse
  | .blankBackslash, c, cs =>
    if c = '\n' then .goOn .lineEnd
    else if isSpace c || beginsNewline c cs then .goOn .blankBackslash
    else .refuse
  | .code left value, c, _ =>
    match hexValue c with
    | none => .refuse
    | some digit =>
      if 1 < left then .goOn (.code (left - 1) (value * 16 + digit))
      else
        match charOf? (value * 16 + digit) with
        | some char => .keep char
        | none => .refuse

/-- The next character between single quotes. -/
def literalStep (multiline : Bool) (c : Char) (cs : List Char) : Step :=
  match closing multiline '\x27' (c :: cs) with
  | some (text, rest) => .close text rest
  | none => textStep multiline c cs

/-- The text of a string, from some place inside it on, and what follows the closing quotes. -/
def stringText (step : Pending → Char → List Char → Step) (pending : Pending) :
    List Char → Option (List Char × List Char)
  | [] => none
  | c :: cs =>
    match step pending c cs with
    | .keep char =>
      match stringText step .nothing cs with
      | some (text, rest) => some (char :: text, rest)
      | none => none
    | .goOn pending => stringText step pending cs
    | .close text rest => some (text, rest)
    | .refuse => none

/-- Reads a string after its opening quotes. -/
def readAfterQuotes (step : Pending → Char → List Char → Step) : Reading String := fun cs =>
  (stringText step .nothing cs).map fun (text, rest) => (String.ofList text, rest)

/-- A text without the newline before it. -/
def skipNewline (cs : List Char) : List Char := (afterNewline cs).getD cs

/-- Reads a string on one line, with its quotes. -/
def readLineString : Reading String
  | '\x22' :: cs => readAfterQuotes (basicStep false) cs
  | '\x27' :: cs => readAfterQuotes (fun _ => literalStep false) cs
  | _ => none

/-- Reads a string with its quotes. -/
def readString : Reading String
  | '\x22' :: '\x22' :: '\x22' :: cs => readAfterQuotes (basicStep true) (skipNewline cs)
  | '\x27' :: '\x27' :: '\x27' :: cs =>
    readAfterQuotes (fun _ => literalStep true) (skipNewline cs)
  | cs => readLineString cs

end LiteralFill.Toml

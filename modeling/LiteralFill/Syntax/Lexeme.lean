import LiteralFill.Syntax.Token
import LiteralFill.Text.Letter

/-!
A text cut into lexemes: tokens, comments, newlines and runs of blanks, in order and without gaps.
`lexemeAt` says what starts at a character and how many characters it has; `lexemes` applies it from
one end of the text to the other.
-/

namespace LiteralFill

/-- What a stretch of text is. -/
inductive LexemeKind
  | blank | newline | lineComment | blockComment
  /-- A block comment that the text ends in. -/
  | openComment
  | byteOrderMark
  | token (kind : TokenKind)
  deriving DecidableEq, Repr, Inhabited

/-- A stretch of text of one kind. -/
structure Lexeme where
  kind : LexemeKind
  text : List Char
  deriving DecidableEq, Repr, Inhabited

/-- The length of the longest start of a text whose characters all satisfy a test. -/
def runLength (p : Char → Bool) (cs : List Char) : Nat := (cs.takeWhile p).length

/-- Blanks within a line. -/
def isLineBlank (c : Char) : Bool := c == ' ' || c == '\t' || c == '\r' || c == '\x0c'

/-- The number of characters through the first `*/`. -/
def throughClose : List Char → Option Nat
  | '*' :: '/' :: _ => some 2
  | _ :: cs => (throughClose cs).map (· + 1)
  | [] => none

/-! ## Numbers -/

/-- A digit of a number, or a separator. -/
def isNumberDigit (c : Char) : Bool := c.isDigit || c == '_'

/-- A letter that introduces an exponent. -/
def isExponentLetter (c : Char) : Bool := c == 'e' || c == 'E' || c == 'p' || c == 'P'

/-- The length of a number without a signed exponent: digits and letters, and perhaps a point and
more of them. -/
def plainNumberLength (cs : List Char) : Nat :=
  let word := fun c : Char => c.isAlphanum || c == '_'
  let whole := runLength word cs
  match cs.drop whole with
  | '.' :: fraction => whole + 1 + runLength word fraction
  | _ => whole

/-- Where a number stands between its first digit and the sign of its exponent: outside an exponent,
just after an exponent letter, or among the digits after one. -/
inductive ExponentPlace
  | outside | letter | digits
  deriving DecidableEq, Repr, Inhabited

/-- The place after one more character, if the sign may still follow. An `i` leads out of an exponent, and
digits stand inside one only. -/
def ExponentPlace.next (p : ExponentPlace) (c : Char) : Option ExponentPlace :=
  if isExponentLetter c then some letter
  else if c == 'i' then some outside
  else if isNumberDigit c && p != outside then some digits
  else none

/-- The number of characters before the sign of an exponent, which follows an exponent letter. -/
def lengthToSign (p : ExponentPlace) : List Char → Option Nat
  | [] => none
  | c :: cs =>
    match p.next c with
    | some q => (lengthToSign q cs).map (· + 1)
    | none => if p = .letter && (c == '+' || c == '-') then some 0 else none

/-- The length of a number with a signed exponent, or zero. The exponent letter before the sign may be the
last of several; each of them follows the first digit, another exponent or an `i`. -/
def signedNumberLength (cs : List Char) : Nat :=
  match lengthToSign .outside (cs.drop 1) with
  | some middle =>
    let rest := cs.drop (middle + 2)
    let digits := runLength isNumberDigit rest
    let imaginary := if rest[digits]? = some 'i' then 1 else 0
    if digits = 0 then 0 else middle + 2 + digits + imaginary
  | none => 0

/-- The length of a number that starts with a digit. -/
def numberLength (cs : List Char) : Nat := max (plainNumberLength cs) (signedNumberLength cs)

/-- The length of an exponent at the start of a text, or zero. -/
def exponentLength : List Char → Nat
  | [] => 0
  | e :: cs =>
    if e == 'e' || e == 'E' then
      match cs with
      | [] => 0
      | sign :: rest =>
        if sign == '+' || sign == '-' then
          let digits := runLength isNumberDigit rest
          if digits = 0 then 0 else 2 + digits
        else
          let digits := runLength isNumberDigit cs
          if digits = 0 then 0 else 1 + digits
    else 0

/-- The length of what follows the point of a number that starts with one. -/
def fractionLength (cs : List Char) : Nat :=
  let digits := runLength isNumberDigit cs
  let exponent := exponentLength (cs.drop digits)
  let imaginary := if cs[digits + exponent]? = some 'i' then 1 else 0
  digits + exponent + imaginary

/-! ## Quoted tokens -/

/-- The number of characters of a quoted body before its closing quote, the end of the line or the
end of the text, and whether the closing quote follows. A backslash takes the next character with
it, and stands for nothing at the end of a line. -/
def quotedBody (quote : Char) : List Char → Nat × Bool
  | [] => (0, false)
  | '\\' :: d :: cs =>
    if d = '\n' then (0, false)
    else
      let (length, closed) := quotedBody quote cs
      (length + 2, closed)
  | c :: cs =>
    if c = quote then (0, true)
    else if c = '\n' || c = '\\' then (0, false)
    else
      let (length, closed) := quotedBody quote cs
      (length + 1, closed)

/-- The characters of a body between raw quotes, and whether the closing one follows. -/
def rawBody (quote : Char) (cs : List Char) : Nat × Bool :=
  let length := runLength (· != quote) cs
  (length, length < cs.length)

/-! ## Operators -/

/-- The tokens made of fixed characters, longer ones before their beginnings. -/
def fixedTokens : List (List Char × TokenKind) :=
  [("<<=", .operator), (">>=", .operator), ("&^=", .operator), ("...", .ellipsis),
   ("<-", .arrow), (":=", .define), ("++", .increment), ("--", .decrement),
   ("+=", .operator), ("-=", .operator), ("*=", .operator), ("/=", .operator), ("%=", .operator),
   ("&=", .operator), ("|=", .operator), ("^=", .operator), ("<<", .operator), (">>", .operator),
   ("&^", .operator), ("&&", .operator), ("||", .operator), ("==", .operator), ("!=", .operator),
   ("<=", .operator), (">=", .operator),
   ("=", .assign), ("*", .star), ("~", .tilde), ("|", .pipe),
   ("+", .operator), ("-", .operator), ("/", .operator), ("%", .operator), ("&", .operator),
   ("^", .operator), ("!", .operator), ("<", .operator), (">", .operator),
   ("(", .opener .paren), (")", .closer .paren), ("[", .opener .square), ("]", .closer .square),
   ("\x7b", .opener .brace), ("\x7d", .closer .brace),
   (",", .comma), (";", .semicolon), (":", .colon), (".", .dot)].map
    fun (text, kind) => (text.toList, kind)

/-- The longest fixed token at the start of a text. -/
def fixedToken (cs : List Char) : Option (TokenKind × Nat) :=
  (fixedTokens.find? fun (text, _) => text.isPrefixOf cs).map fun (text, kind) => (kind, text.length)

/-! ## The scan -/

/-- An identifier or a reserved word. A reserved word counts as an identifier when the byte after it could
begin one more letter or digit: it is then a longer identifier that breaks off. -/
def wordKind (word : List Char) (next : Option Char) : TokenKind :=
  match Keyword.ofText? word with
  | some k => if next.any beginsLikeIdent then .ident else .keyword k
  | none => .ident

/-- A token in quotes, or an invalid token that has the quote and what could be read after it. -/
def quotedToken (kind : TokenKind) (body : Nat × Bool) : LexemeKind × Nat :=
  if body.2 then (.token kind, body.1 + 2) else (.token .invalid, body.1 + 1)

/-- What starts at the first character of `c :: cs`, and its number of characters. -/
def lexemeAt (c : Char) (cs : List Char) : LexemeKind × Nat :=
  if isLineBlank c then (.blank, 1 + runLength isLineBlank cs)
  else if c = '\n' then (.newline, 1)
  else if c = '\uFEFF' then (.byteOrderMark, 1)
  else if startsIdent c then
    let length := 1 + runLength continuesIdent cs
    (.token (wordKind ((c :: cs).take length) (cs.drop (length - 1)).head?), length)
  else if c.isDigit then (.token .number, numberLength (c :: cs))
  else if c = '.' && (cs.head?.map Char.isDigit).getD false then
    (.token .number, 1 + fractionLength cs)
  else if c = '\x22' then quotedToken .string (quotedBody c cs)
  else if c = '\x60' then quotedToken .rawString (rawBody c cs)
  else if c = '\x27' then
    match quotedBody c cs with
    | (0, true) => (.token .invalid, 1)
    | body => quotedToken .rune body
  else if c = '/' && cs.head? = some '/' then (.lineComment, 1 + runLength (· != '\n') cs)
  else if c = '/' && cs.head? = some '*' then
    match throughClose (cs.drop 1) with
    | some length => (.blockComment, 2 + length)
    | none => (.openComment, 1 + cs.length)
  else
    match fixedToken (c :: cs) with
    | some (kind, length) => (.token kind, length)
    | none => (.token .invalid, 1)

/-- The lexemes of a text of which the first `skip` characters belong to the lexeme before. -/
def lexemesFrom : Nat → List Char → List Lexeme
  | _, [] => []
  | skip + 1, _ :: cs => lexemesFrom skip cs
  | 0, c :: cs =>
    let (kind, length) := lexemeAt c cs
    ⟨kind, (c :: cs).take length⟩ :: lexemesFrom (length - 1) cs

/-- The lexemes of a text. -/
def lexemes (text : List Char) : List Lexeme := lexemesFrom 0 text

end LiteralFill

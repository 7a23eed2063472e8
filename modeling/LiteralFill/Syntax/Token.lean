import LiteralFill.Text.Bytes

/-!
The tokens of Go source text. A token carries its text and the position where it starts; a
semicolon that no character stands for has the empty text.
-/

namespace LiteralFill

/-- The reserved words. -/
inductive Keyword
  | breakWord | caseWord | chanWord | constWord | continueWord
  | defaultWord | deferWord | elseWord | fallthroughWord | forWord
  | funcWord | goWord | gotoWord | ifWord | importWord
  | interfaceWord | mapWord | packageWord | rangeWord | returnWord
  | selectWord | structWord | switchWord | typeWord | varWord
  deriving DecidableEq, Repr, Inhabited

namespace Keyword

/-- How a reserved word is written. -/
def text : Keyword → String
  | breakWord => "break" | caseWord => "case" | chanWord => "chan" | constWord => "const"
  | continueWord => "continue" | defaultWord => "default" | deferWord => "defer"
  | elseWord => "else" | fallthroughWord => "fallthrough" | forWord => "for"
  | funcWord => "func" | goWord => "go" | gotoWord => "goto" | ifWord => "if"
  | importWord => "import" | interfaceWord => "interface" | mapWord => "map"
  | packageWord => "package" | rangeWord => "range" | returnWord => "return"
  | selectWord => "select" | structWord => "struct" | switchWord => "switch"
  | typeWord => "type" | varWord => "var"

def all : List Keyword :=
  [breakWord, caseWord, chanWord, constWord, continueWord, defaultWord, deferWord, elseWord,
   fallthroughWord, forWord, funcWord, goWord, gotoWord, ifWord, importWord, interfaceWord,
   mapWord, packageWord, rangeWord, returnWord, selectWord, structWord, switchWord, typeWord,
   varWord]

/-- The reserved word that a text spells. -/
def ofText? (text : List Char) : Option Keyword := all.find? fun k => k.text.toList == text

end Keyword

/-- The three kinds of brackets. -/
inductive Bracket
  | paren | square | brace
  deriving DecidableEq, Repr, Inhabited

/-- What a token is. Operators that nothing here looks at are all of one kind, and `invalid` stands
for characters that form no token. -/
inductive TokenKind
  | ident | number | string | rawString | rune
  | keyword (word : Keyword)
  | opener (bracket : Bracket) | closer (bracket : Bracket)
  | ellipsis | arrow | define | assign | increment | decrement | star | tilde | pipe | operator
  | comma | semicolon | colon | dot
  | invalid
  deriving DecidableEq, Repr, Inhabited

namespace TokenKind

/-- A newline after such a token ends the statement. -/
def endsStatement : TokenKind → Bool
  | ident | number | string | rawString | rune => true
  | keyword .breakWord | keyword .continueWord | keyword .fallthroughWord
  | keyword .returnWord => true
  | increment | decrement | closer _ => true
  | _ => false

end TokenKind

/-- A token at its place in a text. -/
structure Token where
  kind : TokenKind
  start : Nat
  text : List Char
  deriving DecidableEq, Repr, Inhabited

namespace Token

/-- The position after the last character. -/
def stop (t : Token) : Nat := t.start + byteLength t.text

/-- The range of a token in its text. -/
def span (t : Token) : Span := ⟨t.start, t.stop⟩

/-- The text of a token as a name. -/
def name (t : Token) : String := String.ofList t.text

/-- The semicolon that a newline, or the end of the text, stands for. -/
def impliedSemicolon (offset : Nat) : Token := ⟨.semicolon, offset, []⟩

/-- A semicolon that was not written. -/
def isImplied (t : Token) : Bool := t.kind == .semicolon && t.text.isEmpty

end Token

/-- Whether a problem was found among the characters or among the tokens. -/
inductive DiagnosticKind
  | lexical | grammatical
  deriving DecidableEq, Repr, Inhabited

/-- A problem in a text that does not keep the rest from being read. -/
structure Diagnostic where
  kind : DiagnosticKind
  span : Span
  message : String
  deriving DecidableEq, Repr, Inhabited

end LiteralFill

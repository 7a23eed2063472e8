import LiteralFill.Syntax.Lexeme

/-!
The tokens of a text and the semicolons that its newlines stand for. A newline after a token that can
end a statement stands for a semicolon; a line comment leaves the newline to do so, a block comment
does so itself if it holds one, and so does the end of the text.
-/

namespace LiteralFill

/-- The position of the first newline of a text that begins at `offset`. -/
def newlineAt (offset : Nat) : List Char → Option Nat
  | [] => none
  | c :: cs => if c = '\n' then some offset else newlineAt (offset + c.utf8Size) cs

/-- The tokens of lexemes that begin at `offset`. `pending` says that the token before can end a
statement and no newline has come since. -/
def tokensFrom (offset : Nat) (pending : Bool) : List Lexeme → List Token
  | [] => if pending then [.impliedSemicolon offset] else []
  | l :: ls =>
    let next := offset + byteLength l.text
    match l.kind with
    | .blank | .lineComment => tokensFrom next pending ls
    | .newline | .blockComment =>
      match pending, newlineAt offset l.text with
      | true, some line => .impliedSemicolon line :: tokensFrom next false ls
      | _, _ => tokensFrom next pending ls
    | .openComment => ⟨.invalid, offset, l.text⟩ :: tokensFrom next false ls
    | .byteOrderMark => tokensFrom next false ls
    | .token kind => ⟨kind, offset, l.text⟩ :: tokensFrom next kind.endsStatement ls

/-- The problems among lexemes that begin at `offset`. A byte order mark is none at the start. -/
def lexicalDiagnostics (offset : Nat) : List Lexeme → List Diagnostic
  | [] => []
  | l :: ls =>
    let next := offset + byteLength l.text
    let rest := lexicalDiagnostics next ls
    match l.kind with
    | .openComment => ⟨.lexical, ⟨offset, next⟩, "unterminated comment"⟩ :: rest
    | .token .invalid => ⟨.lexical, ⟨offset, next⟩, "invalid token"⟩ :: rest
    | .byteOrderMark =>
      if offset = 0 then rest else ⟨.lexical, ⟨offset, next⟩, "invalid token"⟩ :: rest
    | _ => rest

/-- The tokens of a text and the problems found among its characters. -/
def tokenize (text : List Char) : List Token × List Diagnostic :=
  let ls := lexemes text
  (tokensFrom 0 false ls, lexicalDiagnostics 0 ls)

end LiteralFill

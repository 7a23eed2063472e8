import LiteralFill.Proofs.Lexing.Token
import LiteralFill.Syntax.TypeExpr
import LiteralFill.Types.Display

/-!
The shape of a type: the type as it is written, with names where names are shown. A type is displayed as the text
of its shape, so what is displayed says no more of a type than its shape.
-/

namespace LiteralFill

/-! ## Shapes -/

def Length.shape : Length → WrittenLength
  | known n => .number n
  | symbolic text => .expression text

namespace Ty

mutual

/-- How a type is written. Struct types that are not read from a text have their fields at no place. -/
def shape (q : Qualifier) : Ty → TypeExpr
  | primitive .pointer => .name (q pointerName) pointerName.name []
  | primitive p => .name none p.name []
  | named n args _ => .name (q n) n.name (shapeAll q args)
  | unseen n => .name (q n) n.name []
  | pointer t => .pointer (shape q t)
  | slice t => .slice (shape q t)
  | array l t => .array l.shape (shape q t)
  | map k v => .map (shape q k) (shape q v)
  | chan d t => .chan d (shape q t)
  | struct fields => .struct (shapeFields q fields)
  | interface text => .interface text
  | func text => .func text
  | param name => .name none name []

def shapeAll (q : Qualifier) : List Ty → List TypeExpr
  | [] => []
  | t :: ts => shape q t :: shapeAll q ts

def shapeField (q : Qualifier) : Field Ty → FieldDecl TypeExpr
  | ⟨name, t, embedded, tag⟩ => ⟨if embedded then [] else [name], shape q t, tag, .empty 0⟩

def shapeFields (q : Qualifier) : List (Field Ty) → List (FieldDecl TypeExpr)
  | [] => []
  | f :: rest => shapeField q f :: shapeFields q rest

end

end Ty

/-! ## The lexemes of a shape -/

/-- A token with its text. -/
def tokenLexeme (kind : TokenKind) (text : String) : Lexeme := ⟨.token kind, text.toList⟩

/-- A reserved word. -/
def keywordLexeme (word : Keyword) : Lexeme := tokenLexeme (.keyword word) word.text

/-- A blank between two tokens. -/
def spaceLexeme : Lexeme := ⟨.blank, [' ']⟩

/-- The kind of a string literal, by its quotes. -/
def literalKind (text : String) : TokenKind :=
  if text.toList.head? = some '\x60' then .rawString else .string

def WrittenLength.lexemes : WrittenLength → List Lexeme
  | number n => [⟨.token .number, Nat.toDigits 10 n⟩]
  | ellipsis => [tokenLexeme .ellipsis "..."]
  | expression text => LiteralFill.lexemes text.toList

/-- What stands before the element of a channel type. -/
def Direction.lexemes : Direction → List Lexeme
  | both => [keywordLexeme .chanWord, spaceLexeme]
  | send => [keywordLexeme .chanWord, tokenLexeme .arrow "<-", spaceLexeme]
  | receive => [tokenLexeme .arrow "<-", keywordLexeme .chanWord, spaceLexeme]

/-- A name with its package before it. -/
def nameLexemes : Option String → String → List Lexeme
  | some package, name => [tokenLexeme .ident package, tokenLexeme .dot ".", tokenLexeme .ident name]
  | none, name => [tokenLexeme .ident name]

/-- The names of a field, and a blank before its type. -/
def fieldNameLexemes : List String → List Lexeme
  | [] => []
  | [name] => [tokenLexeme .ident name, spaceLexeme]
  | name :: rest => tokenLexeme .ident name :: tokenLexeme .comma "," :: spaceLexeme :: fieldNameLexemes rest

def tagLexemes : Option String → List Lexeme
  | some tag => [spaceLexeme, tokenLexeme (literalKind tag) tag]
  | none => []

namespace TypeExpr

mutual

/-- The lexemes of a type in the way that types are displayed. -/
def lexemes : TypeExpr → List Lexeme
  | .name p n args => nameLexemes p n ++ argLexemes args
  | .pointer t => tokenLexeme .star "*" :: lexemes t
  | .slice t => tokenLexeme (.opener .square) "[" :: tokenLexeme (.closer .square) "]" :: lexemes t
  | .array l t =>
    tokenLexeme (.opener .square) "[" :: (l.lexemes ++ tokenLexeme (.closer .square) "]" :: lexemes t)
  | .map k v =>
    keywordLexeme .mapWord :: tokenLexeme (.opener .square) "[" ::
      (lexemes k ++ tokenLexeme (.closer .square) "]" :: lexemes v)
  | .chan d t => d.lexemes ++ lexemes t
  | .func text => LiteralFill.lexemes text.toList
  | .struct fields =>
    keywordLexeme .structWord :: tokenLexeme (.opener .brace) "\x7b" ::
      (bodyLexemes fields ++ [tokenLexeme (.closer .brace) "\x7d"])
  | .interface text => LiteralFill.lexemes text.toList

/-- Type arguments in brackets. -/
def argLexemes : List TypeExpr → List Lexeme
  | [] => []
  | a :: rest =>
    tokenLexeme (.opener .square) "[" :: (lexemes a ++ (moreLexemes rest ++ [tokenLexeme (.closer .square) "]"]))

/-- Further type arguments, each after a comma. -/
def moreLexemes : List TypeExpr → List Lexeme
  | [] => []
  | a :: rest => tokenLexeme .comma "," :: spaceLexeme :: (lexemes a ++ moreLexemes rest)

/-- The fields between the braces of a struct type. -/
def bodyLexemes : List (FieldDecl TypeExpr) → List Lexeme
  | [] => []
  | f :: rest => spaceLexeme :: (fieldLexemes f ++ (moreFieldLexemes rest ++ [spaceLexeme]))

/-- One field of a struct type. -/
def fieldLexemes : FieldDecl TypeExpr → List Lexeme
  | ⟨names, t, tag, _⟩ => fieldNameLexemes names ++ (lexemes t ++ tagLexemes tag)

/-- Further fields, each after a semicolon. -/
def moreFieldLexemes : List (FieldDecl TypeExpr) → List Lexeme
  | [] => []
  | f :: rest => tokenLexeme .semicolon ";" :: spaceLexeme :: (fieldLexemes f ++ moreFieldLexemes rest)

end

end TypeExpr

/-! ## What is displayed -/

@[simp] theorem tokenLexeme_text (kind : TokenKind) (text : String) :
    (tokenLexeme kind text).text = text.toList := rfl

@[simp] theorem keywordLexeme_text (word : Keyword) : (keywordLexeme word).text = word.text.toList := rfl

@[simp] theorem spaceLexeme_text : spaceLexeme.text = [' '] := rfl

theorem toList_showName (q : Qualifier) (n : TypeName) :
    (showName q n).toList = lexemesText (nameLexemes (q n) n.name) := by
  cases h : q n <;> simp [showName, nameLexemes, h]

theorem toList_length (l : Length) : l.text.toList = lexemesText l.shape.lexemes := by
  cases l <;> simp [Length.text, Length.shape, WrittenLength.lexemes, lexemesText_lexemes]

theorem toList_direction (d : Direction) : d.text.toList = lexemesText d.lexemes := by
  cases d <;> rfl

namespace Ty

mutual

/-- A type is displayed as the text of its shape. -/
theorem toList_display (q : Qualifier) :
    ∀ t : Ty, (t.display q).toList = lexemesText (t.shape q).lexemes
  | primitive p => by
    cases p with
    | pointer => simp [display, shape, TypeExpr.lexemes, TypeExpr.argLexemes, toList_showName]
    | _ => simp [display, shape, TypeExpr.lexemes, TypeExpr.argLexemes, nameLexemes]
  | named n [] _ => by simp [display, shape, shapeAll, TypeExpr.lexemes, TypeExpr.argLexemes, toList_showName]
  | named n (a :: rest) _ => by
    simp [display, shape, shapeAll, TypeExpr.lexemes, TypeExpr.argLexemes, toList_showName, toList_display q a,
      toList_displayMore q rest]
  | unseen n => by simp [display, shape, TypeExpr.lexemes, TypeExpr.argLexemes, toList_showName]
  | pointer t => by simp [display, shape, TypeExpr.lexemes, toList_display q t]
  | slice t => by simp [display, shape, TypeExpr.lexemes, toList_display q t]
  | array l t => by simp [display, shape, TypeExpr.lexemes, toList_length, toList_display q t]
  | map k v => by
    simp [display, shape, TypeExpr.lexemes, Keyword.text, toList_display q k, toList_display q v]
  | chan d t => by simp [display, shape, TypeExpr.lexemes, toList_direction, toList_display q t]
  | struct [] => by simp [display, shape, shapeFields, TypeExpr.lexemes, TypeExpr.bodyLexemes, Keyword.text]
  | struct (f :: rest) => by
    simp [display, shape, shapeFields, TypeExpr.lexemes, TypeExpr.bodyLexemes, Keyword.text, toList_displayField q f,
      toList_displayMoreFields q rest]
  | interface text => by simp [display, shape, TypeExpr.lexemes, lexemesText_lexemes]
  | func text => by simp [display, shape, TypeExpr.lexemes, lexemesText_lexemes]
  | param name => by simp [display, shape, TypeExpr.lexemes, TypeExpr.argLexemes, nameLexemes]

theorem toList_displayMore (q : Qualifier) : ∀ ts : List Ty,
    (displayMore q ts).toList = lexemesText (TypeExpr.moreLexemes (shapeAll q ts))
  | [] => rfl
  | t :: ts => by
    simp [displayMore, shapeAll, TypeExpr.moreLexemes, toList_display q t, toList_displayMore q ts]

theorem toList_displayField (q : Qualifier) : ∀ f : Field Ty,
    (displayField q f).toList = lexemesText (TypeExpr.fieldLexemes (shapeField q f))
  | ⟨name, t, embedded, tag⟩ => by
    cases embedded <;> cases tag <;>
      simp [displayField, shapeField, TypeExpr.fieldLexemes, fieldNameLexemes, tagLexemes,
        toList_display q t]

theorem toList_displayMoreFields (q : Qualifier) : ∀ fs : List (Field Ty),
    (displayMoreFields q fs).toList = lexemesText (TypeExpr.moreFieldLexemes (shapeFields q fs))
  | [] => rfl
  | f :: fs => by
    simp [displayMoreFields, shapeFields, TypeExpr.moreFieldLexemes, toList_displayField q f,
      toList_displayMoreFields q fs]

end

end Ty

end LiteralFill

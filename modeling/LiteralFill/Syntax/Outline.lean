import LiteralFill.Syntax.DeclarationReader
import LiteralFill.Syntax.ElementReader
import LiteralFill.Syntax.Semicolon

/-!
The outline of a file: one pass over its tokens that reads the package clause, declarations and
literals, and steps over everything else.

A type name before a brace is a literal, unless a statement header is open at the same nesting: then the
brace begins the block of the statement. After `func` no type before a brace is one, since the brace
begins the body. The pass therefore keeps the headers that are open, the bodies it is in, and the
literals it is in.
-/

namespace LiteralFill

/-- A header that waits for its block: the number of brackets and of literals around it, and whether it
is that of a function. -/
structure Header where
  depth : Nat
  level : Nat
  isFunc : Bool
  deriving DecidableEq, Repr, Inhabited

/-- Where the pass stands and what it has found. Headers, bodies and literals in progress have the
innermost first; of a literal in progress the index of its closing brace is kept. -/
structure Outline where
  index : Nat
  depth : Nat
  headers : List Header
  bodies : List Span
  openLiterals : List Nat
  package : Option String
  imports : List ImportSpec
  types : List TypeDecl
  consts : List ConstDecl
  literals : List CompositeLiteral
  diagnostics : List Diagnostic
  deriving Inhabited

namespace Outline

/-- The number of literals around the pass. -/
def level (o : Outline) : Nat := o.openLiterals.length

/-- The innermost header, if nothing has been opened since. -/
def headerHere (o : Outline) : Option Header :=
  match o.headers with
  | h :: _ => if h.depth = o.depth ∧ h.level = o.level then some h else none
  | [] => none

/-- The innermost body around a position. -/
def bodyAround (o : Outline) (offset : Nat) : Option Span := o.bodies.find? (·.contains offset)

/-- Passes over one token. -/
def advance (o : Outline) : Outline := { o with index := o.index + 1 }

/-- What a reader reads at the place of the pass. The reader never gives up. -/
def read {α : Type} (o : Outline) (r : Reader (List α)) : List α × Outline :=
  match r ⟨o.index, o.diagnostics⟩ with
  | (found, c) => (found.getD [], { o with index := c.index, diagnostics := c.diagnostics })

/-- The package clause. A name that does not follow is reported. -/
def stepPackage (s : Lexed) (o : Outline) : Outline :=
  let o := o.advance
  if s.kindAt o.index = some .ident then
    { o.advance with package := some (s.nameAt o.index) }
  else
    let problem : Diagnostic := ⟨.grammatical, s.spanAt o.index, "expected package name"⟩
    { o with diagnostics := o.diagnostics ++ [problem] }

def stepImports (s : Lexed) (o : Outline) : Outline :=
  let (found, o) := o.read (readImports s)
  { o with imports := o.imports ++ found }

def stepTypes (s : Lexed) (o : Outline) : Outline :=
  let (found, o) := o.read (readTypes s (o.bodyAround (s.startAt o.index)))
  { o with types := o.types ++ found }

def stepConsts (s : Lexed) (o : Outline) : Outline :=
  let (found, o) := o.read (readConsts s (o.bodyAround (s.startAt o.index)))
  { o with consts := o.consts ++ found }

/-- The keyword `type` declares unless it stands in a type switch, as in `x.(type)`. -/
def declaresType (s : Lexed) (i : Nat) : Bool :=
  let before := if i = 0 then none else s.kindAt (i - 1)
  before != some (.opener .paren) &&
    (s.kindAt (i + 1) == some .ident || s.kindAt (i + 1) == some (.opener .paren))

/-- A header begins. -/
def stepHeader (isFunc : Bool) (o : Outline) : Outline :=
  { o.advance with headers := ⟨o.depth, o.level, isFunc⟩ :: o.headers }

/-- A semicolon ends the function headers of its nesting. One that stands for a newline ends all
headers; a written one may be part of a `for` clause. -/
def stepSemicolon (isImplied : Bool) (o : Outline) : Outline :=
  { o.advance with
    headers := o.headers.dropWhile fun h =>
      h.level == o.level && o.depth ≤ h.depth && (isImplied || h.isFunc) }

/-- Parentheses or square brackets open. -/
def stepOpen (o : Outline) : Outline := { o.advance with depth := o.depth + 1 }

/-- Parentheses or square brackets close, and the headers inside them end. -/
def stepClose (o : Outline) : Outline :=
  let depth := o.depth - 1
  { o.advance with depth, headers := o.headers.dropWhile fun h => depth < h.depth }

/-- A brace opens that is not that of a literal: the block of the header at this nesting, if there is
one. -/
def stepOpenBrace (s : Lexed) (o : Outline) : Outline :=
  match o.headerHere with
  | none => o.advance
  | some h =>
    let o' := { o.advance with headers := o.headers.drop 1 }
    if h.isFunc then
      let stop :=
        match s.closerOf o.index with
        | some close => s.stopAt close
        | none => byteLength s.text
      { o' with bodies := ⟨s.startAt o.index, stop⟩ :: o.bodies }
    else o'

/-- A brace closes: the innermost literal in progress, if it is its brace, and every body that ends
here or before. -/
def stepCloseBrace (s : Lexed) (o : Outline) : Outline :=
  let o' := { o.advance with bodies := o.bodies.filter fun b => s.startAt o.index + 1 < b.stop }
  match o.openLiterals with
  | close :: outer =>
    if close = o.index then
      { o' with
        openLiterals := outer
        headers := o.headers.dropWhile fun h => outer.length < h.level }
    else o'
  | [] => o'

/-- The literal that begins at the place of the pass, with the indices of its braces, and the problems
found in its type. -/
def literalHere (s : Lexed) (o : Outline) : Option (CompositeLiteral × Nat × Nat × List Diagnostic) :=
  match readType s ⟨o.index, o.diagnostics⟩ with
  | (some type, c) =>
    let isBlock :=
      match o.headerHere with
      | some h => h.isFunc || type.isName
      | none => false
    if s.kindAt c.index = some (.opener .brace) && !isBlock then
      match s.closerOf c.index with
      | some rbrace =>
        let (elements, dangling) := splitElements s c.index rbrace
        let typeSpan : Span := ⟨s.startAt o.index, s.stopBefore c.index⟩
        some (⟨type, typeSpan, s.startAt c.index, s.startAt rbrace, elements, dangling⟩,
          c.index, rbrace, c.diagnostics)
      | none => none
    else none
  | (none, _) => none

/-- A literal if one begins here; otherwise the given step. After a literal's type the pass goes on
inside its braces. -/
def stepLiteral (s : Lexed) (otherwise : Outline → Outline) (o : Outline) : Outline :=
  match literalHere s o with
  | some (literal, lbrace, rbrace, diagnostics) =>
    { o with
      index := lbrace + 1
      openLiterals := rbrace :: o.openLiterals
      literals := o.literals ++ [literal]
      diagnostics }
  | none => otherwise o

/-- The body of a type that is not part of a literal is stepped over. -/
def stepTypeBody (s : Lexed) (o : Outline) : Outline :=
  let o := o.advance
  if s.kindAt o.index = some (.opener .brace) then
    { o with index := s.skipGroup o.index (o.index + 1) }
  else o

/-- One step of the pass, at a token. -/
def step (s : Lexed) (t : Token) (o : Outline) : Outline :=
  match t.kind with
  | .keyword .packageWord => stepPackage s o
  | .keyword .importWord => stepImports s o
  | .keyword .typeWord => if declaresType s o.index then stepTypes s o else o.advance
  | .keyword .constWord => stepConsts s o
  | .keyword .funcWord => stepHeader true o
  | .keyword .ifWord | .keyword .forWord | .keyword .switchWord | .keyword .selectWord =>
    stepHeader false o
  | .semicolon => stepSemicolon t.isImplied o
  | .opener .square => stepLiteral s stepOpen o
  | .opener .paren => stepOpen o
  | .closer .paren | .closer .square => stepClose o
  | .opener .brace => stepOpenBrace s o
  | .closer .brace => stepCloseBrace s o
  | .ident | .keyword .mapWord => stepLiteral s advance o
  | .keyword .structWord => stepLiteral s (stepTypeBody s) o
  | .keyword .interfaceWord => stepTypeBody s o
  | _ => o.advance

/-- Steps up to the end of the tokens. Every step passes at least one token. -/
def run (s : Lexed) : Nat → Outline → Outline
  | 0, o => o
  | fuel + 1, o =>
    match s.tokens[o.index]? with
    | some t => run s fuel (step s t o)
    | none => o

/-- Nothing read yet. -/
def start (diagnostics : List Diagnostic) : Outline :=
  ⟨0, 0, [], [], [], none, [], [], [], [], diagnostics⟩

end Outline

namespace Lexed

/-- A text with its tokens and brackets matched, and the problems of both. -/
def ofText (text : List Char) : Lexed × List Diagnostic :=
  let (tokens, lexical) := tokenize text
  let matching := Matching.ofTokens tokens
  (⟨text, tokens.toArray, matching.closers⟩, lexical ++ matching.diagnostics)

end Lexed

namespace SourceFile

/-- Reads a file. Problems are listed and never keep the rest from being read. -/
def parse (text : List Char) : SourceFile :=
  let (s, diagnostics) := Lexed.ofText text
  let o := Outline.run s s.size (Outline.start diagnostics)
  ⟨text, o.package, o.imports, o.types, o.consts, o.literals, o.diagnostics⟩

end SourceFile

end LiteralFill

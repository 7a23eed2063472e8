import LiteralFill.Syntax.SourceFile
import LiteralFill.Syntax.TypeReader

/-!
Reading the declarations of imports, types and constants. Each kind is one declaration, or a group of
them in parentheses; a broken one is passed over up to the next semicolon.
-/

namespace LiteralFill

open Reader

/-- The declarations of a group up to index `close`. -/
def readGroup {α : Type} (s : Lexed) (spec : Nat → Reader (List α)) (close : Nat) :
    Nat → List α → Reader (List α)
  | 0, found => give found
  | fuel + 1, found => do
    if (← index) < close then
      if ← eat s .semicolon then readGroup s spec close fuel found
      else do
        let more ← spec close
        readGroup s spec close fuel (found ++ more)
    else give found

/-- What follows the keyword at the cursor: one declaration or a group. A declaration is told the index
that it may not pass. -/
def readDeclarations {α : Type} (s : Lexed) (spec : Nat → Reader (List α)) :
    Reader (List α) := do
  let i ← index
  skip 1
  if s.kindAt (i + 1) = some (.opener .paren) then do
    let close := (s.closerOf (i + 1)).getD s.size
    skip 1
    let found ← readGroup s spec close (close - i) []
    goTo (close + 1)
    give found
  else spec s.size

/-- A declaration that gives one thing, or is passed over when it gives up. -/
def orRecover {α : Type} (s : Lexed) (limit : Nat) (r : Reader α) : Reader (List α) := do
  match ← r.optional with
  | some a => give [a]
  | none =>
    recover s limit
    give []

/-! ## Imports -/

/-- A quoted text without its quotes. -/
def unquote (text : List Char) : List Char := (text.drop 1).dropLast

/-- One import. -/
def readImport (s : Lexed) : Reader ImportSpec := do
  let first ← index
  let alias? ←
    match s.kindAt first with
    | some .ident => do
      skip 1
      give (some (s.nameAt first))
    | some .dot => do
      skip 1
      give (some ".")
    | _ => give none
  let i ← index
  if s.kindAt i = some .string || s.kindAt i = some .rawString then do
    skip 1
    give ⟨alias?, String.ofList (unquote (s.nameAt i).toList), ⟨s.startAt first, s.stopAt i⟩⟩
  else do
    report s "expected import path"
    fail

/-- The imports after the keyword. -/
def readImports (s : Lexed) : Reader (List ImportSpec) :=
  readDeclarations s fun limit => orRecover s limit (readImport s)

/-! ## Types -/

/-- The brackets at an index after a type's name hold type parameters, not the length of an array. -/
def beginsParams (s : Lexed) (i : Nat) : Bool :=
  s.kindAt (i + 1) = some .ident &&
    match s.kindAt (i + 2) with
    | some .ident | some .comma | some .tilde | some .star | some (.opener .square)
    | some (.keyword .interfaceWord) | some (.keyword .mapWord) | some (.keyword .chanWord)
    | some (.keyword .funcWord) => true
    | _ => false

/-- The names that stand first in their group among the tokens from `i` to `close`. -/
def paramNames (s : Lexed) (close : Nat) : Nat → Bool → Nat → List String
  | 0, _, _ => []
  | fuel + 1, groupStart, i =>
    if i < close then
      let rest :=
        match s.kindAt i with
        | some .comma => paramNames s close fuel true (i + 1)
        | some (.opener _) => paramNames s close fuel false (s.skipGroup i close)
        | _ => paramNames s close fuel false (i + 1)
      if groupStart && s.kindAt i = some .ident then s.nameAt i :: rest else rest
    else []

/-- The type parameters in brackets after a type's name, if there are any. -/
def readParams (s : Lexed) : Reader (List String) := do
  let i ← index
  if s.kindAt i = some (.opener .square) && beginsParams s i then do
    let close := (s.closerOf i).getD i
    goTo (close + 1)
    give (paramNames s close (close - i) true (i + 1))
  else give []

/-- One declared type. -/
def readTypeSpec (s : Lexed) (scope : Option Span) : Reader TypeDecl := do
  let first ← index
  if s.kindAt first = some .ident then do
    skip 1
    let params ← readParams s
    let isAlias ← eat s .assign
    match ← (readType s).optional with
    | some type =>
      let next ← index
      give ⟨s.nameAt first, params, isAlias, type, ⟨s.startAt first, s.stopBefore next⟩, scope⟩
    | none =>
      report s "expected type"
      fail
  else do
    report s "expected type name"
    fail

/-- The types after the keyword. -/
def readTypes (s : Lexed) (scope : Option Span) : Reader (List TypeDecl) :=
  readDeclarations s fun limit => orRecover s limit (readTypeSpec s scope)

/-! ## Constants -/

/-- The names of one constant declaration, with commas between them. -/
def readConstNames (s : Lexed) : Nat → List String → Reader (List String)
  | 0, names => give names
  | fuel + 1, names => do
    let i ← index
    if ← eat s .ident then
      if ← eat s .comma then readConstNames s fuel (names ++ [s.nameAt i])
      else give (names ++ [s.nameAt i])
    else give names

/-- The first index from `i` on that satisfies a test or reaches `limit`. Brackets are entered. -/
def firstIndex (s : Lexed) (limit : Nat) (p : TokenKind → Bool) : Nat → Nat → Nat
  | 0, i => i
  | fuel + 1, i =>
    if i < limit && !((s.kindAt i).map p).getD false then firstIndex s limit p fuel (i + 1) else i

/-- The index after the value that starts at `i`: that of the next comma or semicolon outside brackets,
or `limit`. -/
def afterValue (s : Lexed) (limit : Nat) : Nat → Nat → Nat
  | 0, i => i
  | fuel + 1, i =>
    if i < limit then
      match s.kindAt i with
      | some .comma | some .semicolon => i
      | some (.opener _) => afterValue s limit fuel (s.skipGroup i limit)
      | _ => afterValue s limit fuel (i + 1)
    else i

/-- The values of one constant declaration; a value that is no single number is not known. -/
def readConstValues (s : Lexed) (limit : Nat) : Nat → List (Option Nat) → Reader (List (Option Nat))
  | 0, values => give values
  | fuel + 1, values => do
    let i ← index
    let stop := afterValue s limit (limit - i) i
    let value :=
      if stop = i + 1 && s.kindAt i = some .number then integerValue (s.nameAt i).toList else none
    goTo stop
    if ← eat s .comma then readConstValues s limit fuel (values ++ [value])
    else give (values ++ [value])

/-- The constants of one declaration. -/
def readConstSpec (s : Lexed) (scope : Option Span) (limit : Nat) : Reader (List ConstDecl) := do
  let first ← index
  let names ← readConstNames s (s.size - first + 1) []
  if names.isEmpty then do
    report s "expected constant name"
    recover s limit
    give []
  else do
    let i ← index
    goTo (firstIndex s limit (fun k => k == .assign || k == .semicolon) (limit - i) i)
    let values ←
      if ← eat s .assign then readConstValues s limit (s.size - i + 1) [] else give []
    recover s limit
    give (names.zipIdx.map fun (name, n) => ⟨name, (values[n]?).join, scope⟩)

/-- The constants after the keyword. -/
def readConsts (s : Lexed) (scope : Option Span) : Reader (List ConstDecl) :=
  readDeclarations s (readConstSpec s scope)

end LiteralFill

import LiteralFill.Syntax.Reader
import LiteralFill.Syntax.TypeExpr
import LiteralFill.Syntax.Integer

/-!
Reading types. Each form of type is read by a step that takes the reader of the types inside it;
`readType` closes the knot. A type inside another starts at a later token, so as many nested readers
as there are tokens are enough.
-/

namespace LiteralFill

open Reader

/-- A token that may begin the result type of a function. -/
def beginsResult : TokenKind → Bool
  | .ident | .star | .arrow | .opener .square => true
  | .keyword .mapWord | .keyword .chanWord | .keyword .funcWord | .keyword .structWord
  | .keyword .interfaceWord => true
  | _ => false

/-! ## Type arguments -/

/-- The types up to the closing bracket at index `close`, with commas between them. -/
def readArgs (s : Lexed) (inner : Reader TypeExpr) (close : Nat) :
    Nat → List TypeExpr → Reader (List TypeExpr)
  | 0, _ => fail
  | fuel + 1, args => do
    let arg ← inner
    if ← eat s .comma then readArgs s inner close fuel (args ++ [arg])
    else if (← index) = close then do
      skip 1
      give (args ++ [arg])
    else fail

/-- The type arguments after a name. Brackets that do not hold a list of types are left alone. -/
def readTypeArgs (s : Lexed) (inner : Reader TypeExpr) : Reader (List TypeExpr) := do
  let start ← index
  if s.kindAt start = some (.opener .square) && s.kindAt (start + 1) != some (.closer .square) then
    match s.closerOf start with
    | none => give []
    | some close =>
      skip 1
      match ← (readArgs s inner close (close - start) []).optional with
      | some args => give args
      | none =>
        goTo start
        give []
  else give []

/-! ## Struct types -/

/-- A field ends before this index. -/
def endsField (s : Lexed) (rbrace i : Nat) : Bool :=
  rbrace ≤ i || match s.kindAt i with
    | some .semicolon | some .string | some .rawString => true
    | _ => false

/-- The field that starts with the identifier at this index is embedded: the identifier is followed
by a point, by brackets that end the field, or by the end of the field. -/
def isEmbeddedAt (s : Lexed) (rbrace i : Nat) : Bool :=
  match s.kindAt (i + 1) with
  | some .dot => true
  | some (.opener .square) =>
    match s.closerOf (i + 1) with
    | some close => endsField s rbrace (close + 1)
    | none => false
  | _ => endsField s rbrace (i + 1)

/-- The names after the first of a field, each after a comma. -/
def readMoreNames (s : Lexed) : Nat → List String → Reader (List String)
  | 0, names => give names
  | fuel + 1, names => do
    if (← peek s) = some .comma && (← peekAt s 1) = some .ident then do
      let i ← index
      skip 2
      readMoreNames s fuel (names ++ [s.nameAt (i + 1)])
    else give names

/-- The names and the type of a field. -/
def readFieldHead (s : Lexed) (inner : Reader TypeExpr) (rbrace : Nat) :
    Reader (List String × TypeExpr) := do
  let i ← index
  match s.kindAt i with
  | some .ident =>
    if isEmbeddedAt s rbrace i then do
      give ([], ← inner)
    else do
      skip 1
      let names ← readMoreNames s (rbrace - i) [s.nameAt i]
      give (names, ← inner)
  | some .star => do
    skip 1
    give ([], .pointer (← inner))
  | _ => fail

/-- The tag of a field, if a text follows its type. -/
def readTag (s : Lexed) (rbrace : Nat) : Reader (Option String) := do
  let i ← index
  if i < rbrace && (s.kindAt i = some .string || s.kindAt i = some .rawString) then do
    skip 1
    give (some (s.nameAt i))
  else give none

/-- One field, or nothing if the line is broken. The line is passed over either way. -/
def readField (s : Lexed) (inner : Reader TypeExpr) (rbrace : Nat) :
    Reader (Option (FieldDecl TypeExpr)) := do
  let first ← index
  match ← (readFieldHead s inner rbrace).optional with
  | none =>
    goTo first
    report s "expected field declaration"
    goTo (first + 1)
    recover s rbrace
    give none
  | some (names, type) =>
    let tag ← readTag s rbrace
    let last ← index
    let field := ⟨names, type, tag, ⟨s.startAt first, s.stopBefore last⟩⟩
    if last < rbrace then
      if ← eat s .semicolon then give (some field)
      else do
        report s "expected `;` after field"
        recover s rbrace
        give (some field)
    else give (some field)

/-- The fields up to the closing brace at index `rbrace`. -/
def readFields (s : Lexed) (inner : Reader TypeExpr) (rbrace : Nat) :
    Nat → List (FieldDecl TypeExpr) → Reader (List (FieldDecl TypeExpr))
  | 0, fields => give fields
  | fuel + 1, fields => do
    if (← index) < rbrace then
      if ← eat s .semicolon then readFields s inner rbrace fuel fields
      else
        match ← readField s inner rbrace with
        | some field => readFields s inner rbrace fuel (fields ++ [field])
        | none => readFields s inner rbrace fuel fields
    else give fields

/-! ## The forms of types -/

/-- A name, perhaps qualified, and its arguments. -/
def readNamed (s : Lexed) (inner : Reader TypeExpr) : Reader TypeExpr := do
  let i ← index
  if s.kindAt (i + 1) = some .dot && s.kindAt (i + 2) = some .ident then do
    skip 3
    give (.name (some (s.nameAt i)) (s.nameAt (i + 2)) (← readTypeArgs s inner))
  else do
    skip 1
    give (.name none (s.nameAt i) (← readTypeArgs s inner))

/-- The length between the brackets of an array type. -/
def readLength (s : Lexed) (lbrack close : Nat) : Option WrittenLength :=
  if close = lbrack + 2 && s.kindAt (lbrack + 1) = some .ellipsis then some .ellipsis
  else if close = lbrack + 2 && s.kindAt (lbrack + 1) = some .number then
    (integerValue (s.nameAt (lbrack + 1)).toList).map .number
  else if lbrack + 1 < close then some (.expression (s.textBetween (lbrack + 1) (close - 1)))
  else none

/-- A slice or an array type. -/
def readSequence (s : Lexed) (inner : Reader TypeExpr) : Reader TypeExpr := do
  let i ← index
  if s.kindAt (i + 1) = some (.closer .square) then do
    skip 2
    give (.slice (← inner))
  else do
    let close ← require (s.closerOf i)
    let length ← require (readLength s i close)
    goTo (close + 1)
    give (.array length (← inner))

/-- A map type. -/
def readMap (s : Lexed) (inner : Reader TypeExpr) : Reader TypeExpr := do
  skip 1
  expect s (.opener .square)
  let key ← inner
  expect s (.closer .square)
  give (.map key (← inner))

/-- A channel type that starts with its keyword. -/
def readChan (s : Lexed) (inner : Reader TypeExpr) : Reader TypeExpr := do
  skip 1
  let direction := if ← eat s .arrow then Direction.send else .both
  give (.chan direction (← inner))

/-- Passes over the result of a function type: brackets, a type, or nothing. -/
def skipResult (s : Lexed) (inner : Reader TypeExpr) : Reader Unit := do
  let i ← index
  match s.kindAt i with
  | some (.opener .paren) => skipBrackets s
  | some kind =>
    if beginsResult kind then
      match ← inner.optional with
      | some _ => give ()
      | none => goTo i
    else give ()
  | none => give ()

/-- A function type, kept as text. -/
def readFunc (s : Lexed) (inner : Reader TypeExpr) : Reader TypeExpr := do
  let i ← index
  skip 1
  if s.kindAt (i + 1) = some (.opener .paren) then do
    skipBrackets s
    skipResult s inner
    let j ← index
    give (.func (sliceText s.text ⟨s.startAt i, s.stopBefore j⟩))
  else fail

/-- A struct type. -/
def readStruct (s : Lexed) (inner : Reader TypeExpr) : Reader TypeExpr := do
  let i ← index
  skip 1
  if s.kindAt (i + 1) = some (.opener .brace) then do
    let rbrace ← require (s.closerOf (i + 1))
    goTo (i + 2)
    let fields ← readFields s inner rbrace (rbrace - i) []
    goTo (rbrace + 1)
    give (.struct fields)
  else fail

/-- An interface type, kept as text. -/
def readInterface (s : Lexed) : Reader TypeExpr := do
  let i ← index
  skip 1
  if s.kindAt (i + 1) = some (.opener .brace) then do
    skipBrackets s
    let j ← index
    give (.interface (sliceText s.text ⟨s.startAt i, s.stopBefore j⟩))
  else fail

/-- A type in parentheses. -/
def readParenthesized (s : Lexed) (inner : Reader TypeExpr) : Reader TypeExpr := do
  skip 1
  let type ← inner
  expect s (.closer .paren)
  give type

/-- A type, given the reader of the types inside it. -/
def readForm (s : Lexed) (inner : Reader TypeExpr) : Reader TypeExpr := do
  match ← peek s with
  | some .ident => readNamed s inner
  | some .star => do
    skip 1
    give (.pointer (← inner))
  | some (.opener .square) => readSequence s inner
  | some (.keyword .mapWord) => readMap s inner
  | some (.keyword .chanWord) => readChan s inner
  | some .arrow =>
    if (← peekAt s 1) = some (.keyword .chanWord) then do
      skip 2
      give (.chan .receive (← inner))
    else fail
  | some (.keyword .funcWord) => readFunc s inner
  | some (.keyword .structWord) => readStruct s inner
  | some (.keyword .interfaceWord) => readInterface s
  | some (.opener .paren) => readParenthesized s inner
  | _ => fail

/-- A type with at most `depth` types around one another. -/
def readTypeWithin (s : Lexed) : Nat → Cursor → Option TypeExpr × Cursor
  | 0, c => (none, c)
  | depth + 1, c => readForm s (readTypeWithin s depth) c

/-- The type at the cursor. -/
def readType (s : Lexed) : Reader TypeExpr := readTypeWithin s (s.size + 1)

end LiteralFill
